import Synapse.State.V2Sound

/-!
# `event_map` as a cache

A caller can pass events to state resolution that the store may or may not have.  For all lookups they
are a cache.  For the auth chain difference they are not: there an event of `event_map` counts as
unpersisted, and what the state sets reach through `event_map` is compared apart from what they reach in the
store.  If a persisted event refers to an event of `event_map`, which happens when an outlier is persisted
again, one state set may reach that event in the one way and another set in the other.  It is taken then to
be in the auth chains of some state sets only although it is in all of them, and resolution may add it to the
state.  If no event is reached in this way, the result is the one that the store alone would give if it had
all events; and if there is one, the result shows it for the auth rules that accept just this event.
-/

namespace Synapse.State

open Synapse.Util Relation List

variable {ε ρ : Type} [LinearOrder ε]

/-! ## The comparison of the two parts -/

section
variable (eventMap : EventMap ε ρ) (stateResStore : StateResolutionStore ε ρ)
  (stateSets : List (StateMap ε)) (x : ε)

/-- The condition for one event.  If all state sets reach it, all reach it through `event_map` or none
does, and all reach it in the store or none does; if only some reach it, one of them does so in one of these
ways. -/
structure CachedAt : Prop where
  all : (∀ s ∈ stateSets, Reaches (KnownEdge eventMap stateResStore) s.values x) →
    ((∀ s ∈ stateSets, ThroughMap eventMap s x) ∨ ∀ s ∈ stateSets, ¬ ThroughMap eventMap s x) ∧
      ((∀ s ∈ stateSets, ThroughStore eventMap stateResStore s x) ∨
        ∀ s ∈ stateSets, ¬ ThroughStore eventMap stateResStore s x)
  some : ReachDifference (KnownEdge eventMap stateResStore) (stateSets.map StateMap.values) x →
    ∃ s ∈ stateSets, ThroughMap eventMap s x ∨ ThroughStore eventMap stateResStore s x

variable {eventMap stateResStore stateSets x}

/-- The parts together give the auth chain difference exactly under the condition. -/
theorem cachedAt_iff (hsame : ∀ e event event', eventMap.lookup e = some event →
      stateResStore.events.lookup e = some event' → event'.authEventIds = event.authEventIds) :
    CachedAt eventMap stateResStore stateSets x ↔ (SplitDifference eventMap stateResStore stateSets x ↔
      ReachDifference (KnownEdge eventMap stateResStore) (stateSets.map StateMap.values) x) := by
  have hedge : ∀ e a, AuthEdge stateResStore.events.lookup e a →
      KnownEdge eventMap stateResStore e a := by
    rintro e a ⟨event', hevent', ha⟩
    by_cases he : e ∈ eventMap
    · obtain ⟨event, hevent⟩ := Dict.exists_lookup he
      exact (authEdge_known_of_mem he).mpr ⟨event, hevent, hsame e event event' hevent hevent' ▸ ha⟩
    · exact (authEdge_known_of_not_mem he).mpr ⟨event', hevent', ha⟩
  have hmap : ∀ s : StateMap ε, ThroughMap eventMap s x →
      Reaches (KnownEdge eventMap stateResStore) s.values x :=
    fun s ⟨_, e, he, hex⟩ => ⟨e, he, reflTransGen_known hex⟩
  have hstore : ∀ s : StateMap ε, ThroughStore eventMap stateResStore s x →
      Reaches (KnownEdge eventMap stateResStore) s.values x :=
    fun s ⟨y, _, ⟨e, he, hey⟩, hyx⟩ =>
      ⟨e, he, (reflTransGen_known hey).trans (ReflTransGen.mono hedge _ _ hyx)⟩
  -- a part gives no difference exactly if all or none of the sets reach the event
  have hsplit : ∀ P : StateMap ε → Prop, ¬ ((∃ s ∈ stateSets, P s) ∧ ∃ s ∈ stateSets, ¬ P s) ↔
      (∀ s ∈ stateSets, P s) ∨ ∀ s ∈ stateSets, ¬ P s := by
    intro P
    rw [not_and_or]
    simp only [not_exists, not_and, not_not]
    exact or_comm
  constructor
  · intro h
    refine ⟨fun hdiff => ?_, fun hdiff => ?_⟩
    · rw [reachDifference_values]
      by_contra hnot
      rcases (hsplit _).mp hnot with hall | hnone
      · obtain ⟨hm, hs⟩ := h.all hall
        exact hdiff.elim ((hsplit _).mpr hs) ((hsplit _).mpr hm)
      · rcases hdiff with ⟨⟨s, hs, hreach⟩, _⟩ | ⟨⟨s, hs, hreach⟩, _⟩
        · exact hnone s hs (hstore s hreach)
        · exact hnone s hs (hmap s hreach)
    · obtain ⟨s, hs, hreach⟩ := h.some hdiff
      obtain ⟨_, s', hs', hnot⟩ := reachDifference_values.mp hdiff
      rcases hreach with hreach | hreach
      · exact .inr ⟨⟨s, hs, hreach⟩, s', hs', fun h' => hnot (hmap s' h')⟩
      · exact .inl ⟨⟨s, hs, hreach⟩, s', hs', fun h' => hnot (hstore s' h')⟩
  · intro h
    refine ⟨fun hall => ?_, fun hdiff => ?_⟩
    · have hnot : ¬ SplitDifference eventMap stateResStore stateSets x := fun hdiff => by
        obtain ⟨_, s, hs, hnot⟩ := reachDifference_values.mp (h.mp hdiff)
        exact hnot (hall s hs)
      obtain ⟨hs, hm⟩ := not_or.mp hnot
      exact ⟨(hsplit _).mp hm, (hsplit _).mp hs⟩
    · rcases h.mpr hdiff with ⟨⟨s, hs, hreach⟩, _⟩ | ⟨⟨s, hs, hreach⟩, _⟩
      · exact ⟨s, hs, .inr hreach⟩
      · exact ⟨s, hs, .inl hreach⟩

/-- If no persisted event that is reached refers to `event_map`, every event meets the condition. -/
theorem Layered.cachedAt (h : Layered eventMap stateResStore stateSets) :
    CachedAt eventMap stateResStore stateSets x := by
  by_cases hx : x ∈ eventMap
  · have hnot : ∀ s ∈ stateSets, ¬ ThroughStore eventMap stateResStore s x :=
      fun s hs hstore => ((h.throughStore_iff hs).mp hstore).1 hx
    refine ⟨fun hall => ⟨.inl fun s hs => (h.throughMap_iff hs hx).mpr (hall s hs), .inr hnot⟩,
      fun hdiff => ?_⟩
    obtain ⟨s, hs, hreach⟩ := (reachDifference_values.mp hdiff).1
    exact ⟨s, hs, .inl ((h.throughMap_iff hs hx).mpr hreach)⟩
  · refine ⟨fun hall => ⟨.inr fun s _ hmap => hx hmap.1,
      .inl fun s hs => (h.throughStore_iff hs).mpr ⟨hx, hall s hs⟩⟩, fun hdiff => ?_⟩
    obtain ⟨s, hs, hreach⟩ := (reachDifference_values.mp hdiff).1
    exact ⟨s, hs, .inr ((h.throughStore_iff hs).mpr ⟨hx, hreach⟩)⟩

/-- State sets without a conflict are the same. -/
theorem cachedAt_of_not_conflicted (hconf : ∀ key, ¬ Conflicted stateSets key) :
    CachedAt eventMap stateResStore stateSets x := by
  have hsame : ∀ s ∈ stateSets, ∀ s' ∈ stateSets, ∀ e ∈ s.values, e ∈ s'.values := by
    intro s hs s' hs' e he
    obtain ⟨key, hkey⟩ := mem_stateMap_values.mp he
    obtain ⟨e', hagreed⟩ : ∃ e', Agreed stateSets key e' := by
      by_contra hnone
      exact hconf key ⟨⟨s, hs, Dict.mem_of_lookup hkey⟩, not_exists.mp hnone⟩
    obtain rfl := Option.some.inj (hkey.symm.trans (hagreed.2 s hs))
    exact mem_stateMap_values.mpr ⟨key, hagreed.2 s' hs'⟩
  have hreach : ∀ {r : ε → ε → Prop} {y : ε}, ∀ s ∈ stateSets, Reaches r s.values y →
      ∀ s' ∈ stateSets, Reaches r s'.values y :=
    fun s hs ⟨e, he, hey⟩ s' hs' => ⟨e, hsame s hs s' hs' e he, hey⟩
  refine ⟨fun _ => ⟨?_, ?_⟩, fun hdiff => ?_⟩
  · by_cases h : ∃ s ∈ stateSets, ThroughMap eventMap s x
    · obtain ⟨s, hs, hx, hmap⟩ := h
      exact .inl fun s' hs' => ⟨hx, hreach s hs hmap s' hs'⟩
    · exact .inr fun s hs hmap => h ⟨s, hs, hmap⟩
  · by_cases h : ∃ s ∈ stateSets, ThroughStore eventMap stateResStore s x
    · obtain ⟨s, hs, y, hy, hmap, hyx⟩ := h
      exact .inl fun s' hs' => ⟨y, hy, hreach s hs hmap s' hs', hyx⟩
    · exact .inr fun s hs hstore => h ⟨s, hs, hstore⟩
  · obtain ⟨⟨s, hs, h⟩, s', hs', hnot⟩ := reachDifference_values.mp hdiff
    exact absurd (hreach s hs h s' hs') hnot

end

/-! ## Auth rules that accept one event -/

variable [DecidableEq ρ]

section
variable {view : View ε ρ} {roomId : ρ} {restrictedJoinRule : Bool} {o : ResolveOrders ε}
  {x : ε} {event : Event ε ρ}

/-- The auth rules accept one event, against any state, and no other. -/
def acceptsOnly (x : ε) (event : Event ε ρ) (_ : StateKey → Option (Event ε ρ)) : Bool := event.eventId = x

variable (hgenuine : ∀ e event, view e = some event → event.eventId = e) (hx : view x = some event)
  (hrejected : event.rejected = false)
include hgenuine hx hrejected

/-- The walk ends with the event in the state if it is among the events, or was there before. -/
theorem iterativeAuthChecks_acceptsOnly : ∀ {eventIds : List ε} {base resolved : StateMap ε},
    iterativeAuthChecks (viewAccess view) roomId restrictedJoinRule (acceptsOnly x) o eventIds base =
      .ok resolved → x ∈ eventIds ∨ base.lookup event.key = some x → resolved.lookup event.key = some x
  | [], base, resolved, hrun, hmem => by
    obtain rfl := Except.ok.inj hrun
    exact hmem.resolve_left not_mem_nil
  | e :: eventIds, base, resolved, hrun, hmem => by
    obtain ⟨next, hstep, hrest⟩ := bind_eq_ok.mp hrun
    refine iterativeAuthChecks_acceptsOnly hrest ?_
    obtain ⟨event', hindex, hstep⟩ := bind_eq_ok.mp hstep
    obtain ⟨_, _, hstep⟩ := bind_eq_ok.mp hstep
    obtain ⟨_, _, hstep⟩ := bind_eq_ok.mp hstep
    obtain ⟨_, _, hstep⟩ := bind_eq_ok.mp hstep
    obtain rfl := Except.ok.inj hstep
    have hevent' := index_ok hindex
    by_cases hex : e = x
    · subst hex
      obtain rfl := Option.some.inj (hx.symm.trans hevent')
      have haccepts : ∀ authState, acceptsOnly e event authState = true :=
        fun _ => decide_eq_true (hgenuine e event hx)
      rw [hrejected, if_neg Bool.false_ne_true, if_pos (haccepts _), AList.lookup_insert]
      exact .inr rfl
    · -- any other event is rejected or not accepted
      have hnot : acceptsOnly x event' = fun _ => false :=
        funext fun _ => decide_eq_false (hgenuine e event' hevent' ▸ hex)
      rw [hnot, if_neg Bool.false_ne_true, ite_self]
      exact hmem.imp_left fun h => (mem_cons.mp h).resolve_left (Ne.symm hex)

theorem resolveConflicted_acceptsOnly {rounds : ℕ} {full : List ε} {unconflicted resolved : StateMap ε}
    (hkey : unconflicted.lookup event.key = none)
    (hrun : resolveConflicted (viewAccess view) roomId restrictedJoinRule (acceptsOnly x) o rounds full
      unconflicted = .ok resolved) (hmem : x ∈ full) : resolved.lookup event.key = some x := by
  obtain ⟨powerEvents, _, hrun⟩ := bind_eq_ok.mp hrun
  obtain ⟨sorted, _, hrun⟩ := bind_eq_ok.mp hrun
  obtain ⟨afterPower, hfirst, hrun⟩ := bind_eq_ok.mp hrun
  obtain ⟨leftover, hleftover, hrun⟩ := bind_eq_ok.mp hrun
  obtain ⟨afterLeftover, hsecond, hrun⟩ := bind_eq_ok.mp hrun
  obtain rfl := Except.ok.inj hrun
  rw [Dict.lookup_update_items, hkey, Option.none_or]
  refine iterativeAuthChecks_acceptsOnly hgenuine hx hrejected hsecond ?_
  by_cases hsorted : x ∈ sorted
  · exact .inr (iterativeAuthChecks_acceptsOnly hgenuine hx hrejected hfirst (.inl hsorted))
  · refine .inl ((mainlineSort_perm hleftover).mem_iff.mpr (mem_filter.mpr ⟨?_, decide_eq_true hsorted⟩))
    exact o.leftover.mem_order.mpr hmem

end

variable {roomId : ρ} {restrictedJoinRule : Bool} {o : ResolveOrders ε} {stateSets : List (StateMap ε)}
  {eventMap : Option (EventMap ε ρ)} {stateResStore : StateResolutionStore ε ρ} {x : ε}
  {event : Event ε ρ}

/-- The result has the event exactly if it is in the full conflicted set. -/
theorem lookup_resolveEventsWithStore_acceptsOnly {diff : List ε} {resolved : StateMap ε}
    (hrun : resolveEventsWithStore o roomId restrictedJoinRule (acceptsOnly x) stateSets eventMap
      stateResStore = .ok resolved)
    (hgenuine : Genuine (knownEvents (eventMap.getD ∅) stateResStore))
    (hx : (knownEvents (eventMap.getD ∅) stateResStore).lookup x = some event)
    (hrejected : event.rejected = false) (hagreed : ∀ e, ¬ Agreed stateSets event.key e)
    (hconf : ∃ key, Conflicted stateSets key)
    (hdiff : getAuthChainDifference stateSets (eventMap.getD ∅) stateResStore = .ok diff) :
    resolved.lookup event.key = some x ↔ ConflictedEvent stateSets x ∨ x ∈ diff := by
  obtain ⟨full, _, hfull, hview⟩ := resolveEventsWithStore_view o roomId restrictedJoinRule
    (acceptsOnly x) hconf hdiff
  rcases hview with ⟨_, error, herror, _⟩ | ⟨_, hin, hmatch⟩
  · exact nomatch herror.symm.trans hrun
  have hrounds := roundsFor_spec (knownEvents (eventMap.getD ∅) stateResStore) full
    fun e he => ((hfull e).mp he).2
  have hresolved := hmatch.eq_ok hrun
  have hkey : (seperate o stateSets).1.lookup event.key = none :=
    Option.eq_none_iff_forall_ne_some.mpr fun e he => hagreed e (lookup_unconflicted.mp he)
  constructor
  · intro hlookup
    obtain ⟨accepted, _, haccepted, _, hsource⟩ := resolveConflicted_ok hin hrounds.1 hresolved
    rcases hsource event.key x hlookup with hunc | ⟨_, hmem, _⟩
    · exact nomatch hkey.symm.trans hunc
    · exact ((hfull x).mp (haccepted x hmem)).1
  · intro hmem
    exact resolveConflicted_acceptsOnly hgenuine hx hrejected hkey hresolved
      ((hfull x).mpr ⟨hmem, Dict.mem_of_lookup hx⟩)

/-! ## The two runs -/

/-- What the runs are given: genuine events of one room, all of them known from the store or from
`event_map`, and a second store that has them all. -/
structure OneDag (roomId : ρ) (eventMap : EventMap ε ρ)
    (stateResStore allEvents : StateResolutionStore ε ρ) (stateSets : List (StateMap ε)) : Prop where
  all : SameMap (knownEvents eventMap stateResStore) allEvents.events
  genuine : Genuine (knownEvents eventMap stateResStore)
  same : ∀ e event event', eventMap.lookup e = some event → stateResStore.events.lookup e = some event' →
    event'.authEventIds = event.authEventIds
  room : ∀ e event, eventMap.lookup e = some event → event.roomId = roomId
  acyclic : Acyclic (KnownEdge eventMap stateResStore)
  known : ∀ s ∈ stateSets, ∀ e, Reaches (KnownEdge eventMap stateResStore) s.values e →
    e ∈ knownEvents eventMap stateResStore
  exact : ExactDifference stateResStore
  exactAll : ExactDifference allEvents

omit [DecidableEq ρ] in
/-- The difference of the run with `event_map`, and that of the other one. -/
theorem OneDag.differences {eventMap : EventMap ε ρ} {allEvents : StateResolutionStore ε ρ}
    (h : OneDag roomId eventMap stateResStore allEvents stateSets) (hne : stateSets ≠ []) :
    ∃ diff diff', getAuthChainDifference stateSets eventMap stateResStore = .ok diff ∧
      getAuthChainDifference stateSets ∅ allEvents = .ok diff' ∧
      ∀ x, (x ∈ diff ↔ x ∈ diff') ↔ CachedAt eventMap stateResStore stateSets x := by
  have hedges : KnownEdge ∅ allEvents = KnownEdge eventMap stateResStore :=
    congrArg AuthEdge (funext fun e => (h.all e).symm)
  have hlayered : Layered ∅ allEvents stateSets := by
    refine ⟨fun s hs x hx => ?_, fun _ _ _ _ _ _ _ h => absurd h (AList.notMem_empty _)⟩
    rw [hedges] at hx
    show x ∈ allEvents.events
    rw [← AList.lookup_isSome, ← h.all x]
    exact AList.lookup_isSome.mpr (h.known s hs x hx)
  have hgenuine : Genuine eventMap := fun e event he =>
    h.genuine e event ((lookup_knownEvents_of_mem (Dict.mem_of_lookup he)).trans he)
  obtain ⟨diff, hdiff, hmem⟩ := getAuthChainDifference_spec hgenuine
    (h.acyclic.mono fun a b hab => (authEdge_unpersisted hab).2)
    (fun s hs y hnot ⟨e, he, hey⟩ =>
      mem_store_of_known (h.known s hs y ⟨e, he, reflTransGen_known hey⟩) hnot)
    h.exact (.inl hne)
  have hempty : Genuine (∅ : EventMap ε ρ) := fun _ _ h => nomatch h
  obtain ⟨diff', hdiff', hmem'⟩ := getAuthChainDifference_layered hempty (hedges ▸ h.acyclic) hlayered
    h.exactAll (.inl hne)
  refine ⟨diff, diff', hdiff, hdiff', fun x => ?_⟩
  rw [cachedAt_iff h.same, hmem, hmem', hedges]

omit [DecidableEq ρ] in
/-- What the runs are given can be checked on the entries; the second store has what is known. -/
theorem oneDag_of_items {roomId : ρ} {eventMap : Dict ℕ (Event ℕ ρ)}
    {stateResStore : StateResolutionStore ℕ ρ} {stateSets : List (StateMap ℕ)}
    (hgenuine : ∀ entry ∈ (knownEvents eventMap stateResStore).items, entry.2.eventId = entry.1)
    (hsame : ∀ entry ∈ eventMap.items, ∀ entry' ∈ stateResStore.events.items, entry.1 = entry'.1 →
      entry'.2.authEventIds = entry.2.authEventIds)
    (hroom : ∀ entry ∈ eventMap.items, entry.2.roomId = roomId)
    (hauth : ∀ entry ∈ (knownEvents eventMap stateResStore).items, ∀ a ∈ entry.2.authEventIds,
      a < entry.1 ∧ a ∈ knownEvents eventMap stateResStore)
    (hvalues : ∀ s ∈ stateSets, ∀ e ∈ s.values, e ∈ knownEvents eventMap stateResStore)
    (hexact : ExactDifference stateResStore) :
    OneDag roomId eventMap stateResStore (.ofEvents (knownEvents eventMap stateResStore)) stateSets where
  all := fun _ => rfl
  genuine := genuine_of_items hgenuine
  same := fun e event event' h h' =>
    hsame (e, event) (Dict.mem_items.mpr h) (e, event') (Dict.mem_items.mpr h') rfl
  room := fun e event h => hroom (e, event) (Dict.mem_items.mpr h)
  acyclic := acyclic_of_items fun entry hentry a ha => (hauth entry hentry a ha).1
  known := known_of_closed (fun e a ⟨event, hevent, ha⟩ =>
    (hauth (e, event) (Dict.mem_items.mpr hevent) a ha).2) hvalues
  exact := hexact
  exactAll := exactDifference_ofEvents _

/-- Both topics of the room refer to its join rules. -/
def joinRules : Event ℕ ℕ := stateEvent 2 .joinRules "" "@alice" [1]

def aliceTopic : Event ℕ ℕ := stateEvent 3 (.other "m.room.topic") "" "@alice" [1, 2]

def bobTopic : Event ℕ ℕ := stateEvent 4 (.other "m.room.topic") "" "@bob" [1, 2]

/-- Bob's topic has not been persisted. -/
def topicStore : StateResolutionStore ℕ ℕ :=
  .ofEvents (eventsOf [stateEvent 1 .create "" "@alice" [], joinRules, aliceTopic])

/-- A state with one of the topics; the join rules are not in it. -/
def topicState (topic : ℕ) : StateMap ℕ :=
  Dict.update ∅ [((.create, ""), 1), ((.other "m.room.topic", ""), topic)]

end Synapse.State
