import Mathlib.Algebra.Group.Action.Defs
import Synapse.State.V2Graph
import Synapse.Util.Search

/-!
# `_get_auth_chain_difference`

The store can compare auth chains of persisted events only.  The function walks the unpersisted events
itself: the *chain* of an unpersisted event is what can be reached from it through unpersisted events.
In each state set it puts the persisted part of the chain in the place of the event, asks the store
about the result, and adds the unpersisted events that are in the chains of some sets only.

If no persisted event refers to an unpersisted one, an auth chain goes through unpersisted events first
and through persisted ones afterwards.  The persisted events that a state set reaches are then those that
its replacement reaches, and the unpersisted ones are those in its chains: the two parts together are
the auth chain difference.
-/

namespace Synapse.State

open Synapse.Util Relation List AList Dict

variable {ε ρ : Type} [LinearOrder ε]

/-! ## The chain of an unpersisted event -/

section
variable {unpersisted : EventMap ε ρ}

/-- Every event is listed under its own id. -/
def Genuine (events : EventMap ε ρ) : Prop :=
  ∀ e event, events.lookup e = some event → event.eventId = e

/-- The auth references of all events that the code can look up. -/
abbrev KnownEdge (unpersisted : EventMap ε ρ) (stateResStore : StateResolutionStore ε ρ) :
    ε → ε → Prop := AuthEdge (knownEvents unpersisted stateResStore).lookup

/-- How many auth events the events have in all. -/
def branching (unpersisted : EventMap ε ρ) : ℕ :=
  (unpersisted.items.map fun entry => entry.2.authEventIds.length).sum

variable {event : Event ε ρ}

theorem length_le_branching {e : ε} (h : unpersisted.lookup e = some event) :
    event.authEventIds.length ≤ branching unpersisted :=
  single_le_sum (fun _ _ => Nat.zero_le _) _
    (mem_map.mpr ⟨(e, event), mem_items.mpr h, rfl⟩)

/-- A bound for the number of turns that an event on the stack costs. -/
noncomputable def cost (unpersisted : EventMap ε ρ) (event : Event ε ρ) : ℕ :=
  (branching unpersisted + 1) ^
    height (AuthEdge unpersisted.lookup) unpersisted.keys.toFinset event.eventId

/-- An event costs more than all that it puts on the stack. -/
theorem sum_cost_lt (hgenuine : Genuine unpersisted) (hacyclic : Acyclic (AuthEdge unpersisted.lookup))
    (hevent : unpersisted.lookup event.eventId = some event) :
    ((event.authEventIds.filterMap unpersisted.lookup).map (cost unpersisted)).sum <
      cost unpersisted event := by
  have hbelow : ∀ aev ∈ event.authEventIds.filterMap unpersisted.lookup,
      height (AuthEdge unpersisted.lookup) unpersisted.keys.toFinset aev.eventId <
        height (AuthEdge unpersisted.lookup) unpersisted.keys.toFinset event.eventId := by
    intro aev haev
    obtain ⟨a, ha, hlook⟩ := mem_filterMap.mp haev
    rw [hgenuine a aev hlook]
    exact height_lt_of_edge hacyclic
      (mem_toFinset.mpr (mem_keys.mp (mem_of_lookup hlook))) ⟨event, hevent, ha⟩
  have hlength : (event.authEventIds.filterMap unpersisted.lookup).length ≤ branching unpersisted :=
    (length_filterMap_le _ _).trans (length_le_branching hevent)
  unfold cost
  cases hheight : height (AuthEdge unpersisted.lookup) unpersisted.keys.toFinset event.eventId with
  | zero =>
    rw [hheight] at hbelow
    rw [eq_nil_iff_forall_not_mem.mpr fun aev haev => Nat.not_lt_zero _ (hbelow aev haev)]
    exact Nat.one_pos
  | succ h =>
    have hsum := sum_le_card_nsmul
      ((event.authEventIds.filterMap unpersisted.lookup).map fun aev => (branching unpersisted + 1) ^
        height (AuthEdge unpersisted.lookup) unpersisted.keys.toFinset aev.eventId)
      ((branching unpersisted + 1) ^ h) (by
        intro n hn
        obtain ⟨aev, haev, rfl⟩ := mem_map.mp hn
        have hlt := hbelow aev haev
        exact Nat.pow_le_pow_right (Nat.succ_pos _) (by omega))
    rw [length_map, smul_eq_mul] at hsum
    have hpos : 0 < (branching unpersisted + 1) ^ h := Nat.pow_pos (Nat.succ_pos _)
    calc _ ≤ (event.authEventIds.filterMap unpersisted.lookup).length *
          (branching unpersisted + 1) ^ h := hsum
      _ ≤ branching unpersisted * (branching unpersisted + 1) ^ h := Nat.mul_le_mul_right _ hlength
      _ < branching unpersisted * (branching unpersisted + 1) ^ h +
          (branching unpersisted + 1) ^ h := Nat.lt_add_of_pos_right hpos
      _ = (branching unpersisted + 1) ^ (h + 1) := by rw [Nat.pow_succ, Nat.mul_comm, Nat.mul_succ]

omit ρ in
theorem mem_foldl_insert (l chain : List ε) (x : ε) :
    x ∈ l.foldl (fun chain authId => chain.insert authId) chain ↔ x ∈ chain ∨ x ∈ l := by
  rw [← foldr_reverse]
  show x ∈ l.reverse ∪ chain ↔ _
  rw [mem_union_iff, mem_reverse, or_comm]

theorem searchChain_spec (hgenuine : Genuine unpersisted)
    (hacyclic : Acyclic (AuthEdge unpersisted.lookup)) :
    ∀ (rounds : ℕ) (chain : List ε) (toSearch : List (Event ε ρ)),
      (∀ event ∈ toSearch, unpersisted.lookup event.eventId = some event) →
      (toSearch.map (cost unpersisted)).sum ≤ rounds →
      ∃ result, searchChain unpersisted rounds chain toSearch = some result ∧
        ∀ x, x ∈ result ↔ x ∈ chain ∨ ∃ event ∈ toSearch, ∃ a ∈ event.authEventIds,
          ReflTransGen (AuthEdge unpersisted.lookup) a x
  | rounds, chain, [], _, _ => by
    refine ⟨chain, ?_, fun x => by simp⟩
    unfold searchChain
    rfl
  | 0, chain, event :: toSearch, hstack, hle => by
    have hlt := sum_cost_lt hgenuine hacyclic (hstack event mem_cons_self)
    rw [map_cons, sum_cons] at hle
    omega
  | rounds + 1, chain, event :: toSearch, hstack, hle => by
    have hevent := hstack event mem_cons_self
    have hlt := sum_cost_lt hgenuine hacyclic hevent
    have hstack' : ∀ ev ∈ (event.authEventIds.filterMap unpersisted.lookup).reverse ++ toSearch,
        unpersisted.lookup ev.eventId = some ev := by
      intro ev hev
      rcases mem_append.mp hev with hev | hev
      · obtain ⟨a, _, hlook⟩ := mem_filterMap.mp (mem_reverse.mp hev)
        rw [hgenuine a ev hlook]
        exact hlook
      · exact hstack ev (mem_cons_of_mem _ hev)
    have hle' : (((event.authEventIds.filterMap unpersisted.lookup).reverse ++ toSearch).map
        (cost unpersisted)).sum ≤ rounds := by
      rw [map_append, sum_append, map_reverse, sum_reverse]
      rw [map_cons, sum_cons] at hle
      omega
    obtain ⟨result, hresult, hmem⟩ := searchChain_spec hgenuine hacyclic rounds
      (event.authEventIds.foldl (fun chain authId => chain.insert authId) chain) _ hstack' hle'
    refine ⟨result, hresult, fun x => ?_⟩
    rw [hmem, mem_foldl_insert]
    constructor
    · rintro ((h | h) | ⟨ev, hev, a, ha, hax⟩)
      · exact .inl h
      · exact .inr ⟨event, mem_cons_self, x, h, .refl⟩
      · rcases mem_append.mp hev with hev | hev
        · obtain ⟨b, hb, hlook⟩ := mem_filterMap.mp (mem_reverse.mp hev)
          exact .inr ⟨event, mem_cons_self, b, hb, .head ⟨ev, hlook, ha⟩ hax⟩
        · exact .inr ⟨ev, mem_cons_of_mem _ hev, a, ha, hax⟩
    · rintro (h | ⟨ev, hev, a, ha, hax⟩)
      · exact .inl (.inl h)
      · rcases mem_cons.mp hev with rfl | hev
        · rcases hax.cases_head with rfl | ⟨b, ⟨aev, haev, hb⟩, hbx⟩
          · exact .inl (.inr ha)
          · exact .inr ⟨aev, mem_append_left _ (mem_reverse.mpr
              (mem_filterMap.mpr ⟨a, ha, haev⟩)), b, hb, hbx⟩
        · exact .inr ⟨ev, mem_append_right _ hev, a, ha, hax⟩

/-- The chains of the unpersisted events: what can be reached through unpersisted events. -/
theorem eventsToAuthChain_spec (hgenuine : Genuine unpersisted)
    (hacyclic : Acyclic (AuthEdge unpersisted.lookup)) :
    ∃ chains, eventsToAuthChain unpersisted = .ok chains ∧ (∀ e, e ∈ chains ↔ e ∈ unpersisted) ∧
      ∀ e chain, chains.lookup e = some chain →
        ∀ x, x ∈ chain ↔ ReflTransGen (AuthEdge unpersisted.lookup) e x := by
  have hsearch : ∀ e event, unpersisted.lookup e = some event → ∃ chain,
      searchChain unpersisted (searchRounds unpersisted) [event.eventId] [event] = some chain ∧
      ∀ x, x ∈ chain ↔ ReflTransGen (AuthEdge unpersisted.lookup) e x := by
    intro e event hevent
    have hid := hgenuine e event hevent
    -- no path is longer than the map has events
    have hcost : ([event].map (cost unpersisted)).sum ≤ searchRounds unpersisted := by
      have hlt := height_lt_card hacyclic
        (mem_toFinset.mpr (mem_keys.mp (mem_of_lookup hevent)))
      rw [toFinset_card_of_nodup unpersisted.keys_nodup, ← hid] at hlt
      exact Nat.pow_le_pow_right (Nat.succ_pos _) hlt.le
    obtain ⟨chain, hchain, hmem⟩ := searchChain_spec hgenuine hacyclic (searchRounds unpersisted)
      [event.eventId] [event] (fun ev hev => by
        rw [mem_singleton.mp hev, hid]
        exact hevent) hcost
    refine ⟨chain, hchain, fun x => ?_⟩
    rw [hmem, mem_singleton, hid]
    constructor
    · rintro (rfl | ⟨ev, hev, a, ha, hax⟩)
      · exact .refl
      · rw [mem_singleton.mp hev] at ha
        exact .head ⟨event, hevent, ha⟩ hax
    · intro hex
      rcases hex.cases_head with rfl | ⟨a, ⟨ev, hev, ha⟩, hax⟩
      · exact .inl rfl
      · obtain rfl : event = ev := Option.some.inj (hevent.symm.trans hev)
        exact .inr ⟨event, mem_singleton.mpr rfl, a, ha, hax⟩
  obtain ⟨chains, hchains, hdone, honly⟩ : ∃ chains, eventsToAuthChain unpersisted = .ok chains ∧
      (∀ event ∈ unpersisted.items.map Prod.snd, event.eventId ∈ chains) ∧
      ∀ e chain, chains.lookup e = some chain → e ∈ unpersisted ∧
        ∀ x, x ∈ chain ↔ ReflTransGen (AuthEdge unpersisted.lookup) e x :=
    foldlM_ok_inv (I := fun (done : List (Event ε ρ)) (chains : Dict ε (List ε)) =>
      (∀ event ∈ done, event.eventId ∈ chains) ∧
      ∀ e chain, chains.lookup e = some chain → e ∈ unpersisted ∧
        ∀ x, x ∈ chain ↔ ReflTransGen (AuthEdge unpersisted.lookup) e x)
    (unpersisted.items.map Prod.snd) (by
      rintro done event rest chains heq ⟨hdone, honly⟩
      have hmem : event ∈ unpersisted.items.map Prod.snd := by
        rw [heq]
        exact mem_append_cons_self
      obtain ⟨⟨e, event⟩, hitem, rfl⟩ := mem_map.mp hmem
      have hevent := mem_items.mp hitem
      obtain ⟨chain, hchain, hspec⟩ := hsearch e event hevent
      have hid : event.eventId = e := hgenuine e event hevent
      refine ⟨chains.insert event.eventId chain, ?_, fun ev hev => ?_, fun e' chain' hlook => ?_⟩
      · rw [hchain]
      · refine (mem_insert chains).mpr ?_
        rcases mem_append.mp hev with hev | hev
        · exact .inr (hdone ev hev)
        · exact .inl (by rw [mem_singleton.mp hev])
      · rcases lookup_insert_cases hlook with ⟨rfl, rfl⟩ | ⟨_, hlook⟩
        · rw [hid]
          exact ⟨mem_of_lookup hevent, hspec⟩
        · exact honly e' chain' hlook)
    ⟨fun event hevent => absurd hevent not_mem_nil, by simp⟩
  refine ⟨chains, hchains, fun e => ⟨fun he => ?_, fun he => ?_⟩,
    fun e chain hlook => (honly e chain hlook).2⟩
  · obtain ⟨chain, hlook⟩ := exists_lookup he
    exact (honly e chain hlook).1
  · obtain ⟨event, hevent⟩ := exists_lookup he
    have h := hdone event (mem_map.mpr ⟨(e, event), mem_items.mpr hevent, rfl⟩)
    rwa [hgenuine e event hevent] at h

end

/-! ## The two parts of a state set -/

section
variable {unpersisted : EventMap ε ρ} {stateResStore : StateResolutionStore ε ρ}
  {chains : Dict ε (List ε)}

theorem splitStateSet_spec (stateSet : StateMap ε) :
    (∀ x, x ∈ (splitStateSet unpersisted chains stateSet).1 ↔ ∃ e ∈ stateSet.values,
      (∃ chain, chains.lookup e = some chain ∧ x ∈ chain ∧ x ∉ unpersisted) ∨
        chains.lookup e = none ∧ x = e) ∧
    ∀ x, x ∈ (splitStateSet unpersisted chains stateSet).2 ↔ ∃ e ∈ stateSet.values,
      ∃ chain, chains.lookup e = some chain ∧ x ∈ chain ∧ x ∈ unpersisted := by
  refine foldl_inv (I := fun done (acc : List ε × List ε) =>
    (∀ x, x ∈ acc.1 ↔ ∃ e ∈ done, (∃ chain, chains.lookup e = some chain ∧ x ∈ chain ∧ x ∉ unpersisted) ∨
        chains.lookup e = none ∧ x = e) ∧
    ∀ x, x ∈ acc.2 ↔ ∃ e ∈ done,
      ∃ chain, chains.lookup e = some chain ∧ x ∈ chain ∧ x ∈ unpersisted) stateSet.values ?_
    ⟨by simp, by simp⟩
  rintro done e rest acc - ⟨h₁, h₂⟩
  have hsplit : ∀ P : ε → Prop, (∃ e' ∈ done ++ [e], P e') ↔ (∃ e' ∈ done, P e') ∨ P e := by
    intro P
    simp only [mem_append, mem_singleton, or_and_right, exists_or, exists_eq_left]
  simp only [hsplit]
  cases hchain : chains.lookup e with
  | none =>
    refine ⟨fun x => ?_, fun x => ?_⟩
    · rw [mem_insert_iff, h₁]
      simp [or_comm]
    · rw [h₂]
      simp
  | some chain =>
    refine ⟨fun x => ?_, fun x => ?_⟩
    · rw [mem_union_iff, h₁]
      simp
    · rw [mem_union_iff, h₂]
      simp

/-- The state sets reach only events that are known, and from an event that is not unpersisted they do
not come back to an unpersisted one. -/
structure Layered (unpersisted : EventMap ε ρ) (stateResStore : StateResolutionStore ε ρ)
    (stateSets : List (StateMap ε)) : Prop where
  known : ∀ s ∈ stateSets, ∀ x,
    Reaches (KnownEdge unpersisted stateResStore) s.values x →
    x ∈ knownEvents unpersisted stateResStore
  noReturn : ∀ s ∈ stateSets, ∀ x,
    Reaches (KnownEdge unpersisted stateResStore) s.values x →
    x ∉ unpersisted → ∀ a, KnownEdge unpersisted stateResStore x a → a ∉ unpersisted

variable {e a : ε}

theorem authEdge_known_of_mem (he : e ∈ unpersisted) :
    KnownEdge unpersisted stateResStore e a ↔ AuthEdge unpersisted.lookup e a := by
  obtain ⟨event, hevent⟩ := exists_lookup he
  unfold KnownEdge AuthEdge knownEvents
  dsimp only
  rw [lookup_update_items, hevent, Option.some_or]

theorem authEdge_known_of_not_mem (he : e ∉ unpersisted) :
    KnownEdge unpersisted stateResStore e a ↔ AuthEdge stateResStore.events.lookup e a := by
  unfold KnownEdge AuthEdge knownEvents
  dsimp only
  rw [lookup_update_items, lookup_eq_none.mpr he, Option.none_or]

theorem authEdge_unpersisted (h : AuthEdge unpersisted.lookup e a) :
    e ∈ unpersisted ∧ KnownEdge unpersisted stateResStore e a := by
  have he : e ∈ unpersisted := by
    obtain ⟨event, hevent, _⟩ := h
    exact mem_of_lookup hevent
  exact ⟨he, (authEdge_known_of_mem he).mpr h⟩

theorem mem_store_of_known (he : e ∈ knownEvents unpersisted stateResStore) (hnot : e ∉ unpersisted) :
    e ∈ stateResStore.events := by
  rw [← lookup_isSome, knownEvents, lookup_update_items, lookup_eq_none.mpr hnot, Option.none_or] at he
  exact lookup_isSome.mp he

variable {x : ε}

theorem reflTransGen_known (h : ReflTransGen (AuthEdge unpersisted.lookup) e x) :
    ReflTransGen (KnownEdge unpersisted stateResStore) e x :=
  ReflTransGen.mono (fun _ _ h => (authEdge_unpersisted h).2) _ _ h

variable {stateSets : List (StateMap ε)} {s : StateMap ε} {y : ε}

section
variable (h : Layered unpersisted stateResStore stateSets) (hs : s ∈ stateSets)
  (hy : Reaches (KnownEdge unpersisted stateResStore) s.values y)
  (hnot : y ∉ unpersisted)
include h hs hy hnot

/-- From an event that is not unpersisted on, only persisted events follow, along the edges that the store
knows. -/
theorem Layered.persisted_of
    (hyx : ReflTransGen (KnownEdge unpersisted stateResStore) y x) :
    x ∉ unpersisted ∧ ReflTransGen (AuthEdge stateResStore.events.lookup) y x := by
  induction hyx with
  | refl => exact ⟨hnot, .refl⟩
  | tail hyz hzx ih =>
    exact ⟨h.noReturn s hs _ (hy.trans hyz) ih.1 _ hzx,
      ih.2.tail ((authEdge_known_of_not_mem ih.1).mp hzx)⟩

theorem Layered.known_of_persisted (hyx : ReflTransGen (AuthEdge stateResStore.events.lookup) y x) :
    x ∉ unpersisted ∧ ReflTransGen (KnownEdge unpersisted stateResStore) y x := by
  induction hyx with
  | refl => exact ⟨hnot, .refl⟩
  | tail hyz hzx ih =>
    have hzx' := (authEdge_known_of_not_mem ih.1).mpr hzx
    exact ⟨h.noReturn s hs _ (hy.trans ih.2) ih.1 _ hzx', ih.2.tail hzx'⟩

end

/-- A path stays among the unpersisted events, or leaves them once. -/
theorem unpersisted_then_known
    (hex : ReflTransGen (KnownEdge unpersisted stateResStore) e x) :
    ReflTransGen (AuthEdge unpersisted.lookup) e x ∨
      ∃ y, y ∉ unpersisted ∧ ReflTransGen (AuthEdge unpersisted.lookup) e y ∧
        ReflTransGen (KnownEdge unpersisted stateResStore) y x := by
  induction hex with
  | refl => exact .inl .refl
  | @tail z x _ hzx ih =>
    rcases ih with h | ⟨y, hy, hey, hyz⟩
    · by_cases hz : z ∈ unpersisted
      · exact .inl (h.tail ((authEdge_known_of_mem hz).mp hzx))
      · exact .inr ⟨z, hz, h, .single hzx⟩
    · exact .inr ⟨y, hy, hey, hyz.tail hzx⟩

/-- A state set reaches an unpersisted event through unpersisted events. -/
def ThroughMap (unpersisted : EventMap ε ρ) (s : StateMap ε) (x : ε) : Prop :=
  x ∈ unpersisted ∧ Reaches (AuthEdge unpersisted.lookup) s.values x

/-- A state set reaches an event by what the store knows of the first persisted events on the way. -/
def ThroughStore (unpersisted : EventMap ε ρ) (stateResStore : StateResolutionStore ε ρ)
    (s : StateMap ε) (x : ε) : Prop :=
  ∃ y ∉ unpersisted, Reaches (AuthEdge unpersisted.lookup) s.values y ∧
    ReflTransGen (AuthEdge stateResStore.events.lookup) y x

/-- What is known of the chains. -/
structure ChainsOf (unpersisted : EventMap ε ρ) (chains : Dict ε (List ε)) : Prop where
  keys : ∀ e, e ∈ chains ↔ e ∈ unpersisted
  chain : ∀ e chain, chains.lookup e = some chain →
    ∀ x, x ∈ chain ↔ ReflTransGen (AuthEdge unpersisted.lookup) e x

theorem ChainsOf.mem_unpersistedIds (hchains : ChainsOf unpersisted chains) :
    x ∈ (splitStateSet unpersisted chains s).2 ↔ ThroughMap unpersisted s x := by
  rw [(splitStateSet_spec s).2]
  constructor
  · rintro ⟨e, he, chain, hlook, hx, hmem⟩
    exact ⟨hmem, e, he, (hchains.chain e chain hlook x).mp hx⟩
  · rintro ⟨hmem, e, he, hex⟩
    have heU : e ∈ unpersisted := by
      rcases hex.cases_head with rfl | ⟨a, ⟨event, hevent, _⟩, _⟩
      · exact hmem
      · exact mem_of_lookup hevent
    obtain ⟨chain, hlook⟩ := exists_lookup ((hchains.keys e).mpr heU)
    exact ⟨e, he, chain, hlook, (hchains.chain e chain hlook x).mpr hex, hmem⟩

theorem ChainsOf.mem_setIds (hchains : ChainsOf unpersisted chains) :
    x ∈ (splitStateSet unpersisted chains s).1 ↔ x ∉ unpersisted ∧
      Reaches (AuthEdge unpersisted.lookup) s.values x := by
  rw [(splitStateSet_spec s).1]
  constructor
  · rintro ⟨e, he, ⟨chain, hlook, hx, hmem⟩ | ⟨hlook, rfl⟩⟩
    · exact ⟨hmem, e, he, (hchains.chain e chain hlook x).mp hx⟩
    · exact ⟨fun h => lookup_eq_none.mp hlook ((hchains.keys x).mpr h), .of_mem he⟩
  · rintro ⟨hmem, e, he, hex⟩
    refine ⟨e, he, ?_⟩
    by_cases heU : e ∈ unpersisted
    · obtain ⟨chain, hlook⟩ := exists_lookup ((hchains.keys e).mpr heU)
      exact .inl ⟨chain, hlook, (hchains.chain e chain hlook x).mpr hex, hmem⟩
    · refine .inr ⟨lookup_eq_none.mpr fun h => heU ((hchains.keys e).mp h), ?_⟩
      rcases hex.cases_head with rfl | ⟨a, hedge, _⟩
      · rfl
      · obtain ⟨event, hevent, _⟩ := hedge
        exact absurd (mem_of_lookup hevent) heU

theorem ChainsOf.reaches_setIds (hchains : ChainsOf unpersisted chains) :
    Reaches (AuthEdge stateResStore.events.lookup) (splitStateSet unpersisted chains s).1 x ↔
      ThroughStore unpersisted stateResStore s x :=
  exists_congr fun _ => (and_congr_left' hchains.mem_setIds).trans and_assoc

variable (h : Layered unpersisted stateResStore stateSets) (hs : s ∈ stateSets)
include h hs

/-- The unpersisted events that a state set reaches. -/
theorem Layered.throughMap_iff (hx : x ∈ unpersisted) : ThroughMap unpersisted s x ↔
    Reaches (KnownEdge unpersisted stateResStore) s.values x := by
  constructor
  · rintro ⟨_, e, he, hex⟩
    exact ⟨e, he, reflTransGen_known hex⟩
  · rintro ⟨e, he, hex⟩
    refine ⟨hx, e, he, ?_⟩
    rcases unpersisted_then_known hex with h' | ⟨y, hy, hey, hyx⟩
    · exact h'
    · exact absurd hx (h.persisted_of hs ⟨e, he, reflTransGen_known hey⟩ hy hyx).1

/-- The other events that a state set reaches. -/
theorem Layered.throughStore_iff : ThroughStore unpersisted stateResStore s x ↔ x ∉ unpersisted ∧
    Reaches (KnownEdge unpersisted stateResStore) s.values x := by
  constructor
  · rintro ⟨y, hnot, ⟨e, he, hey⟩, hyx⟩
    have hreach : Reaches (KnownEdge unpersisted stateResStore) s.values y :=
      ⟨e, he, reflTransGen_known hey⟩
    obtain ⟨hx, hyx'⟩ := h.known_of_persisted hs hreach hnot hyx
    exact ⟨hx, hreach.trans hyx'⟩
  · rintro ⟨hx, e, he, hex⟩
    rcases unpersisted_then_known hex with hex | ⟨y, hy, hey, hyx⟩
    · exact ⟨x, hx, ⟨e, he, hex⟩, .refl⟩
    · exact ⟨y, hy, ⟨e, he, hey⟩, (h.persisted_of hs ⟨e, he, reflTransGen_known hey⟩ hy hyx).2⟩

end

/-! ## The difference -/

/-- The store answers questions about events that it has with their auth chain difference. -/
def ExactDifference (stateResStore : StateResolutionStore ε ρ) : Prop :=
  ∀ sets : List (List ε), (∀ S ∈ sets, ∀ e ∈ S, e ∈ stateResStore.events) →
    ∀ x, x ∈ stateResStore.getAuthChainDifference sets ↔
      ReachDifference (AuthEdge stateResStore.events.lookup) sets x

variable {x : ε} (sets : List (List ε))

omit [LinearOrder ε] in
theorem mem_foldl_union [DecidableEq ε] : ∀ first : List ε,
    x ∈ sets.foldl (· ∪ ·) first ↔ ∃ S ∈ first :: sets, x ∈ S := by
  induction sets with
  | nil => simp
  | cons S sets ih =>
    intro first
    rw [foldl_cons, ih]
    simp [or_assoc]

omit [LinearOrder ε] in
theorem mem_foldl_inter [DecidableEq ε] : ∀ first : List ε,
    x ∈ sets.foldl (· ∩ ·) first ↔ ∀ S ∈ first :: sets, x ∈ S := by
  induction sets with
  | nil => simp
  | cons S sets ih =>
    intro first
    rw [foldl_cons, ih]
    simp [and_assoc]

/-! ## A store that goes by the definition -/

variable (events : EventMap ε ρ)

def authEventsOf (e : ε) : Finset ε :=
  ((events.lookup e).map fun event => event.authEventIds.toFinset).getD ∅

/-- The events of a set with their auth chains. -/
def authChain (ids : List ε) : Finset ε :=
  (search (fun check => check.biUnion (authEventsOf events)) (roundsFor events) ids.toFinset
    ids.toFinset).getD ∅

/-- The store that answers by walking the auth events. -/
def StateResolutionStore.ofEvents : StateResolutionStore ε ρ where
  events := events
  getAuthChainDifference sets :=
    (sets.flatten ++ events.items.flatMap fun entry => entry.2.authEventIds).filter fun x =>
      (∃ S ∈ sets, x ∈ authChain events S) ∧ ∃ S ∈ sets, x ∉ authChain events S

variable {events : EventMap ε ρ}

theorem mem_authEventsOf {e a : ε} : a ∈ authEventsOf events e ↔ AuthEdge events.lookup e a := by
  unfold authEventsOf AuthEdge
  dsimp only
  cases events.lookup e with
  | none => simp
  | some event => simp

theorem mem_authChain {ids : List ε} :
    x ∈ authChain events ids ↔ Reaches (AuthEdge events.lookup) ids x := by
  let mentioned := events.items.flatMap fun entry => entry.2.authEventIds
  have hmentioned : ∀ e a, AuthEdge events.lookup e a → a ∈ mentioned.toFinset := by
    rintro e a ⟨event, hevent, ha⟩
    exact mem_toFinset.mpr (mem_flatMap.mpr ⟨(e, event), mem_items.mpr hevent, ha⟩)
  have hcard : (mentioned.toFinset \ ids.toFinset).card < roundsFor events := by
    have hle := (Finset.card_le_card (Finset.sdiff_subset
      (t := ids.toFinset))).trans (toFinset_card_le mentioned)
    have hsum : mentioned.length ≤
        (events.items.map fun entry => 1 + entry.2.authEventIds.length).sum := by
      rw [length_flatMap]
      exact sum_le_sum fun entry _ => Nat.le_add_left _ _
    unfold roundsFor
    omega
  obtain ⟨result, hrun, hmem⟩ : ∃ result,
      search (fun check => check.biUnion (authEventsOf events)) (roundsFor events) ids.toFinset
        ids.toFinset = some result ∧ ∀ y, y ∈ result ↔
        y ∈ ids.toFinset ∨ ∃ e ∈ ids.toFinset, TransGen (AuthEdge events.lookup) e y :=
    search_spec mentioned.toFinset (fun C y => by simp only [Finset.mem_biUnion, mem_authEventsOf])
      hmentioned (fun x hx hnot => absurd hx hnot) (.inr hcard)
  unfold authChain
  rw [hrun, Option.getD_some, hmem]
  simp only [mem_toFinset]
  constructor
  · rintro (h | ⟨e, he, hex⟩)
    · exact .of_mem h
    · exact ⟨e, he, hex.to_reflTransGen⟩
  · rintro ⟨e, he, hex⟩
    rcases reflTransGen_iff_eq_or_transGen.mp hex with rfl | hex
    · exact .inl he
    · exact .inr ⟨e, he, hex⟩

theorem mem_difference_ofEvents {sets : List (List ε)} :
    x ∈ (StateResolutionStore.ofEvents events).getAuthChainDifference sets ↔
      ReachDifference (AuthEdge events.lookup) sets x := by
  show x ∈ filter _ _ ↔ _
  rw [mem_filter, decide_eq_true_iff]
  simp only [mem_authChain]
  refine and_iff_right_of_imp fun h => ?_
  obtain ⟨⟨S, hS, e, he, hex⟩, _⟩ := h
  rcases hex.cases_tail with rfl | ⟨y, _, event, hevent, hx⟩
  · exact mem_append_left _ (mem_flatten.mpr ⟨S, hS, he⟩)
  · exact mem_append_right _
      (mem_flatMap.mpr ⟨(y, event), mem_items.mpr hevent, hx⟩)

theorem exactDifference_ofEvents (events : EventMap ε ρ) :
    ExactDifference (StateResolutionStore.ofEvents events) := fun _ _ _ => mem_difference_ofEvents

/-! ## Exactness -/

open StateResolutionStore (ofEvents)

section
variable {unpersisted : EventMap ε ρ} {stateResStore : StateResolutionStore ε ρ}
  {stateSets : List (StateMap ε)} (hgenuine : Genuine unpersisted)
  (hacyclic : Acyclic (KnownEdge unpersisted stateResStore))
  (hclosed : ∀ e a, KnownEdge unpersisted stateResStore e a →
    a ∈ knownEvents unpersisted stateResStore)
  (hpersisted : ∀ e a, e ∉ unpersisted → AuthEdge stateResStore.events.lookup e a → a ∉ unpersisted)
  (hvalues : ∀ s ∈ stateSets, ∀ e ∈ s.values, e ∈ knownEvents unpersisted stateResStore)

/-- What is in the chains of some state sets only, through unpersisted events or by what the store knows. -/
def SplitDifference (unpersisted : EventMap ε ρ) (stateResStore : StateResolutionStore ε ρ)
    (stateSets : List (StateMap ε)) (x : ε) : Prop :=
  ((∃ s ∈ stateSets, ThroughStore unpersisted stateResStore s x) ∧
      ∃ s ∈ stateSets, ¬ ThroughStore unpersisted stateResStore s x) ∨
    (∃ s ∈ stateSets, ThroughMap unpersisted s x) ∧ ∃ s ∈ stateSets, ¬ ThroughMap unpersisted s x

omit [LinearOrder ε] in
theorem reachDifference_values {r : ε → ε → Prop} {x : ε} :
    ReachDifference r (stateSets.map StateMap.values) x ↔
      (∃ s ∈ stateSets, Reaches r s.values x) ∧ ∃ s ∈ stateSets, ¬ Reaches r s.values x := by
  unfold ReachDifference
  simp only [mem_map, exists_exists_and_eq_and]

/-- The function compares what is reached through unpersisted events and what the store knows apart. -/
theorem getAuthChainDifference_spec (hgenuine : Genuine unpersisted)
    (hacyclic : Acyclic (AuthEdge unpersisted.lookup))
    (hstore : ∀ s ∈ stateSets, ∀ y ∉ unpersisted, Reaches (AuthEdge unpersisted.lookup) s.values y →
      y ∈ stateResStore.events)
    (hexact : ExactDifference stateResStore) (hsets : stateSets ≠ [] ∨ unpersisted.keys = []) :
    ∃ diff, getAuthChainDifference stateSets unpersisted stateResStore = .ok diff ∧
      ∀ x, x ∈ diff ↔ SplitDifference unpersisted stateResStore stateSets x := by
  obtain ⟨chains, hrun, hkeys, hchain⟩ := eventsToAuthChain_spec hgenuine hacyclic
  have hchains : ChainsOf unpersisted chains := ⟨hkeys, hchain⟩
  have hask : ∀ S ∈ (stateSets.map (splitStateSet unpersisted chains)).map Prod.fst,
      ∀ e ∈ S, e ∈ stateResStore.events := by
    intro S hS e he
    rw [List.map_map] at hS
    obtain ⟨s, hs, rfl⟩ := mem_map.mp hS
    obtain ⟨hnot, hreach⟩ := hchains.mem_setIds.mp he
    exact hstore s hs e hnot hreach
  unfold getAuthChainDifference
  rw [hrun]
  show ∃ diff, (if unpersisted.keys = [] then _ else _) = _ ∧ _
  -- without unpersisted events only the store is asked
  by_cases hempty : unpersisted.keys = []
  · have hnone : ∀ e, e ∉ unpersisted := by
      intro e he
      rw [AList.mem_keys, hempty] at he
      exact not_mem_nil he
    have hvalues : ∀ (s : StateMap ε) (y : ε),
        Reaches (AuthEdge unpersisted.lookup) s.values y ↔ y ∈ s.values := by
      refine fun s y => ⟨fun ⟨e, he, hey⟩ => ?_, .of_mem⟩
      rcases hey.cases_head with rfl | ⟨a, ⟨event, hevent, _⟩, _⟩
      · exact he
      · exact absurd (mem_of_lookup hevent) (hnone e)
    have hthrough : ∀ (s : StateMap ε) (x : ε), ThroughStore unpersisted stateResStore s x ↔
        Reaches (AuthEdge stateResStore.events.lookup) s.values x :=
      fun s x => exists_congr fun y => by rw [hvalues, and_iff_right (hnone y)]
    rw [if_pos hempty]
    refine ⟨_, rfl, fun x => (hexact _ (fun S hS e he => ?_) x).trans ?_⟩
    · obtain ⟨s, hs, rfl⟩ := mem_map.mp hS
      exact hstore s hs e (hnone e) (.of_mem he)
    · rw [reachDifference_values]
      unfold SplitDifference
      simp only [hthrough]
      exact (or_iff_left fun ⟨⟨s, _, h⟩, _⟩ => hnone x h.1).symm
  · rw [if_neg hempty]
    obtain ⟨first, others, rfl⟩ := exists_cons_of_ne_nil (hsets.resolve_right hempty)
    refine ⟨_, rfl, fun x => ?_⟩
    rw [mem_union_iff, hexact _ hask, mem_filter, decide_eq_true_iff, mem_foldl_union, mem_foldl_inter]
    show ReachDifference _ (((first :: others).map _).map Prod.fst) x ∨
      (∃ S ∈ ((first :: others).map (splitStateSet unpersisted chains)).map Prod.snd, x ∈ S) ∧
        ¬ (∀ S ∈ ((first :: others).map (splitStateSet unpersisted chains)).map Prod.snd, x ∈ S) ↔ _
    unfold ReachDifference SplitDifference
    simp only [List.map_map, mem_map, exists_exists_and_eq_and, forall_exists_index, and_imp,
      forall_apply_eq_imp_iff₂, Function.comp_apply, hchains.reaches_setIds, hchains.mem_unpersistedIds,
      not_forall, exists_prop]

include hclosed hvalues in
theorem known_of_closed : ∀ s ∈ stateSets, ∀ x,
    Reaches (KnownEdge unpersisted stateResStore) s.values x →
      x ∈ knownEvents unpersisted stateResStore := by
  rintro s hs x ⟨e, he, hex⟩
  induction hex with
  | refl => exact hvalues s hs e he
  | tail _ hedge _ => exact hclosed _ _ hedge

include hclosed hpersisted hvalues in
/-- A DAG whose auth events are all known, and in which no persisted event refers to an unpersisted one. -/
theorem Layered.of_closed : Layered unpersisted stateResStore stateSets :=
  ⟨known_of_closed hclosed hvalues,
    fun _ _ x _ hx a ha => hpersisted x a hx ((authEdge_known_of_not_mem hx).mp ha)⟩

include hgenuine hacyclic

theorem getAuthChainDifference_layered (hlayered : Layered unpersisted stateResStore stateSets)
    (hexact : ExactDifference stateResStore) (hsets : stateSets ≠ [] ∨ unpersisted.keys = []) :
    ∃ diff, getAuthChainDifference stateSets unpersisted stateResStore = .ok diff ∧
      ∀ x, x ∈ diff ↔ ReachDifference (KnownEdge unpersisted stateResStore)
        (stateSets.map StateMap.values) x := by
  obtain ⟨diff, hrun, hmem⟩ := getAuthChainDifference_spec hgenuine
    (hacyclic.mono fun a b h => (authEdge_unpersisted h).2)
    (fun s hs y hnot ⟨e, he, hey⟩ => mem_store_of_known
      (hlayered.known s hs y ⟨e, he, reflTransGen_known hey⟩) hnot) hexact hsets
  refine ⟨diff, hrun, fun x => (hmem x).trans ?_⟩
  rw [reachDifference_values]
  unfold SplitDifference
  by_cases hx : x ∈ unpersisted
  · -- The store is asked about events from which no unpersisted one can be reached.
    have hown : ∀ s ∈ stateSets, ThroughMap unpersisted s x ↔ Reaches _ _ x :=
      fun s hs => hlayered.throughMap_iff hs hx
    rw [or_iff_right fun ⟨⟨s, hs, h⟩, _⟩ => ((hlayered.throughStore_iff hs).mp h).1 hx]
    exact and_congr (exists_congr fun s => and_congr_right fun hs => hown s hs)
      (exists_congr fun s => and_congr_right fun hs => not_congr (hown s hs))
  · have hown : ∀ s ∈ stateSets, ThroughStore unpersisted stateResStore s x ↔ Reaches _ _ x :=
      fun s hs => (hlayered.throughStore_iff hs).trans (and_iff_right hx)
    rw [or_iff_left fun ⟨⟨s, _, h⟩, _⟩ => hx h.1]
    exact and_congr (exists_congr fun s => and_congr_right fun hs => hown s hs)
      (exists_congr fun s => and_congr_right fun hs => not_congr (hown s hs))

theorem getAuthChainDifference_nil (hsome : unpersisted.keys ≠ []) :
    getAuthChainDifference [] unpersisted stateResStore = .error .indexError := by
  obtain ⟨chains, hrun, -⟩ := eventsToAuthChain_spec hgenuine
    (hacyclic.mono fun a b h => (authEdge_unpersisted h).2)
  unfold getAuthChainDifference
  rw [hrun]
  exact if_neg hsome

include hclosed hpersisted hvalues in
/-- An auth DAG of persisted and unpersisted events in which no persisted event refers to an unpersisted
one, and a store that is exact on the persisted events: the function returns the auth chain difference
of any state sets.  Only if there are no state sets at all, but unpersisted events, does it raise an
exception. -/
theorem getAuthChainDifference_exact_iff (hexact : ExactDifference stateResStore) :
    (∃ diff, getAuthChainDifference stateSets unpersisted stateResStore = .ok diff ∧
      ∀ x, x ∈ diff ↔ ReachDifference (AuthEdge (knownEvents unpersisted stateResStore).lookup)
        (stateSets.map StateMap.values) x) ↔
    stateSets ≠ [] ∨ unpersisted.keys = [] := by
  constructor
  · rintro ⟨diff, hrun, -⟩
    by_contra hnot
    rw [not_or, not_not] at hnot
    obtain ⟨rfl, hsome⟩ := hnot
    rw [getAuthChainDifference_nil hgenuine hacyclic hsome] at hrun
    exact nomatch hrun
  · exact getAuthChainDifference_layered hgenuine hacyclic
      (.of_closed hclosed hpersisted hvalues) hexact

end

section

/-- A state event that refers to some events; its content does not matter for the auth chains. -/
def stateEvent (eventId : ℕ) (type : EventType) (stateKey sender : String) (authEventIds : List ℕ) :
    Event ℕ ℕ where
  eventId := eventId
  roomId := 0
  type := type
  stateKey := stateKey
  sender := sender
  originServerTs := 0
  authEventIds := authEventIds
  rejected := false
  membership := none
  creator := none
  users := some ∅
  usersDefault := none
  thirdPartyInvite := none
  authorisingUser := none

def eventsOf (events : List (Event ℕ ρ)) : Dict ℕ (Event ℕ ρ) :=
  update ∅ (events.map fun event => (event.eventId, event))

variable {events : Dict ℕ (Event ℕ ρ)}

/-- In a list of events with increasing ids, references to smaller ids form no cycle. -/
theorem acyclic_of_items (h : ∀ entry ∈ events.items, ∀ a ∈ entry.2.authEventIds, a < entry.1) :
    Acyclic (AuthEdge events.lookup) := by
  have hlt : ∀ e a, TransGen (AuthEdge events.lookup) e a → a < e := by
    intro e a hea
    induction hea with
    | single hedge =>
      obtain ⟨event, hevent, ha⟩ := hedge
      exact h (e, event) (mem_items.mpr hevent) _ ha
    | tail _ hedge ih =>
      obtain ⟨event, hevent, ha⟩ := hedge
      exact (h (_, event) (mem_items.mpr hevent) _ ha).trans ih
  exact fun e he => Nat.lt_irrefl e (hlt e e he)

theorem genuine_of_items (h : ∀ entry ∈ events.items, entry.2.eventId = entry.1) : Genuine events :=
  fun e event hevent => h (e, event) (mem_items.mpr hevent)

/-- Events that are not persisted yet, and no state set. -/
theorem getAuthChainDifference_noStateSets :
    let unpersisted := eventsOf [stateEvent 1 .create "" "@alice" []]
    let store := ofEvents (∅ : Dict ℕ (Event ℕ ℕ))
    Genuine unpersisted ∧ Acyclic (AuthEdge (knownEvents unpersisted store).lookup) ∧
      ExactDifference store ∧ ¬ ∃ diff, getAuthChainDifference [] unpersisted store = .ok diff ∧
        ∀ x, x ∈ diff ↔ ReachDifference (AuthEdge (knownEvents unpersisted store).lookup)
          (([] : List (StateMap ℕ)).map StateMap.values) x := by
  have hgenuine : Genuine (eventsOf [stateEvent 1 .create "" "@alice" []]) :=
    genuine_of_items (by decide +kernel)
  have hacyclic : Acyclic (AuthEdge (knownEvents (eventsOf [stateEvent 1 .create "" "@alice" []])
      (ofEvents (∅ : Dict ℕ (Event ℕ ℕ)))).lookup) :=
    acyclic_of_items (by decide +kernel)
  refine ⟨hgenuine, hacyclic, exactDifference_ofEvents _, ?_⟩
  rintro ⟨diff, hrun, -⟩
  exact nomatch hrun

/-- A power levels event that is not persisted yet, in one of two state sets. -/
theorem getAuthChainDifference_exact_iff_newPowerLevels :
    let unpersisted := eventsOf [stateEvent 3 .powerLevels "" "@alice" [1, 2]]
    let store := ofEvents
      (eventsOf [stateEvent 1 .create "" "@alice" [], stateEvent 2 .powerLevels "" "@alice" [1]])
    let sets : List (StateMap ℕ) :=
      [update ∅ [(powerLevelsKey, 3)], update ∅ [(powerLevelsKey, 2)]]
    ∃ diff, getAuthChainDifference sets unpersisted store = .ok diff ∧
      ∀ x, x ∈ diff ↔ ReachDifference (AuthEdge (knownEvents unpersisted store).lookup)
        (sets.map StateMap.values) x := by
  intro unpersisted store sets
  have hcross : ∀ entry ∈ store.events.items, ∀ a ∈ entry.2.authEventIds, a ∉ unpersisted := by
    decide +kernel
  have hclosed : ∀ entry ∈ (knownEvents unpersisted store).items, ∀ a ∈ entry.2.authEventIds,
      a ∈ knownEvents unpersisted store := by
    decide +kernel
  refine (getAuthChainDifference_exact_iff (genuine_of_items (by decide +kernel))
    (acyclic_of_items (by decide +kernel)) ?_ ?_ (by decide +kernel)
    (exactDifference_ofEvents _)).mpr (.inl (cons_ne_nil _ _))
  · rintro e a ⟨event, hevent, ha⟩
    exact hclosed (e, event) (mem_items.mpr hevent) a ha
  · rintro e a - ⟨event, hevent, ha⟩
    exact hcross (e, event) (mem_items.mpr hevent) a ha

end
end Synapse.State
