import Synapse.State.AuthDifference
import Synapse.State.V2Order

/-!
# `resolve_events_with_store`

The keys on which all state sets agree make up the unconflicted state; what the other keys have, and the
auth chain difference, is the full conflicted set, as far as these events are known.  None of this
depends on the order or the number of times in which the sets are listed, so neither does the result.
-/

namespace Synapse.State

open Synapse.Util List AList Dict

variable {ε ρ : Type}

/-! ## Separating the state -/

variable (stateSets : List (StateMap ε))

/-- All sets have this event for the key. -/
def Agreed (key : StateKey) (e : ε) : Prop := stateSets ≠ [] ∧ ∀ s ∈ stateSets, s.lookup key = some e

/-- Some set has the key, but they do not agree on it. -/
def Conflicted (key : StateKey) : Prop := (∃ s ∈ stateSets, key ∈ s) ∧ ∀ e, ¬ Agreed stateSets key e

/-- What the sets have for the keys on which they do not agree. -/
def ConflictedEvent (e : ε) : Prop :=
  ∃ key, Conflicted stateSets key ∧ ∃ s ∈ stateSets, s.lookup key = some e

/-- The same state sets, however they and their entries are listed and repeated. -/
def SameSets (stateSets stateSets' : List (StateMap ε)) : Prop :=
  (∀ s ∈ stateSets, ∃ s' ∈ stateSets', SameMap s s') ∧ ∀ s' ∈ stateSets', ∃ s ∈ stateSets, SameMap s' s

variable {stateSets stateSets' : List (StateMap ε)} {key : StateKey} {e : ε}

section
variable (h : SameSets stateSets stateSets')
include h

theorem SameSets.symm : SameSets stateSets' stateSets := ⟨h.2, h.1⟩

theorem SameSets.exists_lookup (hs : ∃ s ∈ stateSets, s.lookup key = some e) :
    ∃ s ∈ stateSets', s.lookup key = some e := by
  obtain ⟨s, hs, he⟩ := hs
  obtain ⟨s', hs', hsame⟩ := h.1 s hs
  exact ⟨s', hs', (hsame key).symm.trans he⟩

theorem SameSets.agreed_of (ha : Agreed stateSets key e) : Agreed stateSets' key e := by
  obtain ⟨s, hs⟩ := exists_mem_of_ne_nil _ ha.1
  obtain ⟨s', hs', _⟩ := h.1 s hs
  refine ⟨ne_nil_of_mem hs', fun s₁ hs₁ => ?_⟩
  obtain ⟨s₂, hs₂, hsame⟩ := h.2 s₁ hs₁
  exact (hsame key).trans (ha.2 s₂ hs₂)

theorem SameSets.agreed :
    Agreed stateSets key e ↔ Agreed stateSets' key e := ⟨h.agreed_of, h.symm.agreed_of⟩

theorem SameSets.conflicted_of (hc : Conflicted stateSets key) : Conflicted stateSets' key := by
  obtain ⟨⟨s, hs, hkey⟩, hnot⟩ := hc
  obtain ⟨e, he⟩ := Dict.exists_lookup hkey
  obtain ⟨s', hs', he'⟩ := h.exists_lookup ⟨s, hs, he⟩
  exact ⟨⟨s', hs', mem_of_lookup he'⟩, fun e' he' => hnot e' (h.agreed.mpr he')⟩

theorem SameSets.conflictedEvent_of (hc : ConflictedEvent stateSets e) :
    ConflictedEvent stateSets' e := by
  obtain ⟨key, hkey, hs⟩ := hc
  exact ⟨key, h.conflicted_of hkey, h.exists_lookup hs⟩

end

variable (o : ResolveOrders ε)

theorem mem_stateKeys (stateSets : List (StateMap ε)) (key : StateKey) :
    key ∈ o.keys.order (stateSets.flatMap (·.keys)).dedup ↔ ∃ s ∈ stateSets, key ∈ s := by
  rw [o.keys.mem_order, mem_dedup, mem_flatMap]
  exact exists_congr fun s => and_congr_right fun _ => mem_keys.symm

variable [LinearOrder ε] {stateSets : List (StateMap ε)}

theorem dedup_lookup_eq_singleton :
    (stateSets.map (·.lookup key)).dedup = [some e] ↔ Agreed stateSets key e := by
  have hmem : ∀ x, x ∈ (stateSets.map (·.lookup key)).dedup ↔ ∃ s ∈ stateSets, s.lookup key = x :=
    fun x => mem_dedup.trans mem_map
  constructor
  · intro h
    rw [h] at hmem
    refine ⟨?_, fun s hs => mem_singleton.mp ((hmem _).mpr ⟨s, hs, rfl⟩)⟩
    rintro rfl
    exact nomatch h
  · rintro ⟨hne, hall⟩
    obtain ⟨s, hs⟩ := exists_mem_of_ne_nil _ hne
    refine perm_singleton.mp ((perm_ext_iff_of_nodup (nodup_dedup _) (nodup_singleton _)).mpr fun x => ?_)
    rw [hmem, mem_singleton]
    constructor
    · rintro ⟨s, hs, rfl⟩
      exact hall s hs
    · rintro rfl
      exact ⟨s, hs, hall s hs⟩

/-- What is known after some of the keys. -/
structure Separated (stateSets : List (StateMap ε)) (done : List StateKey)
    (acc : StateMap ε × Dict StateKey (List ε)) : Prop where
  unconflicted : ∀ key e, acc.1.lookup key = some e ↔ key ∈ done ∧ Agreed stateSets key e
  conflicted : ∀ key ids, acc.2.lookup key = some ids ↔ key ∈ done ∧ (∀ e, ¬ Agreed stateSets key e) ∧
    ids = (stateSets.map (·.lookup key)).dedup.filterMap id

theorem seperate_separated (stateSets : List (StateMap ε)) :
    Separated stateSets (o.keys.order (stateSets.flatMap (·.keys)).dedup) (seperate o stateSets) := by
  refine foldl_inv _ ?_ ⟨by simp, by simp⟩
  intro done key rest acc _ h
  have hmem : ∀ key', key' ∈ done ++ [key] ↔ key' ∈ done ∨ key' = key := by simp
  split
  next e he =>
    have hagreed := dedup_lookup_eq_singleton.mp he
    refine ⟨fun key' e' => ?_, fun key' ids => ?_⟩
    · by_cases hne : key' = key
      · subst hne
        rw [lookup_insert, hmem, Option.some.injEq]
        refine ⟨?_, fun h' => ?_⟩
        · rintro rfl
          exact ⟨.inr rfl, hagreed⟩
        · exact singleton_inj.mp (he.symm.trans (dedup_lookup_eq_singleton.mpr h'.2)) |>
            Option.some.inj
      · rw [lookup_insert_ne hne, h.unconflicted, hmem, or_iff_left hne]
    · rw [h.conflicted, hmem]
      refine ⟨fun h' => ⟨.inl h'.1, h'.2⟩, fun h' => ⟨h'.1.resolve_right ?_, h'.2⟩⟩
      rintro rfl
      exact h'.2.1 e hagreed
  next hnot =>
    have hdisagree : ∀ e, ¬ Agreed stateSets key e :=
      fun e he => hnot e (dedup_lookup_eq_singleton.mpr he)
    refine ⟨fun key' e' => ?_, fun key' ids => ?_⟩
    · rw [h.unconflicted, hmem]
      refine ⟨fun h' => ⟨.inl h'.1, h'.2⟩, fun h' => ⟨h'.1.resolve_right ?_, h'.2⟩⟩
      rintro rfl
      exact hdisagree e' h'.2
    · by_cases hne : key' = key
      · subst hne
        rw [lookup_insert, hmem, Option.some.injEq]
        exact ⟨fun heq => ⟨.inr rfl, hdisagree, heq.symm⟩, fun h' => h'.2.2.symm⟩
      · rw [lookup_insert_ne hne, h.conflicted, hmem, or_iff_left hne]

variable {o : ResolveOrders ε}

theorem lookup_unconflicted : (seperate o stateSets).1.lookup key = some e ↔ Agreed stateSets key e := by
  rw [(seperate_separated o stateSets).unconflicted, mem_stateKeys]
  refine and_iff_right_of_imp fun h => ?_
  obtain ⟨s, hs⟩ := exists_mem_of_ne_nil _ h.1
  exact ⟨s, hs, mem_of_lookup (h.2 s hs)⟩

theorem conflicted_keys_eq_nil :
    (seperate o stateSets).2.keys = [] ↔ ∀ key, ¬ Conflicted stateSets key := by
  rw [eq_nil_iff_forall_not_mem]
  refine forall_congr' fun key => not_congr ?_
  constructor
  · intro h
    obtain ⟨ids, hids⟩ := exists_lookup h
    obtain ⟨hmem, hnot, _⟩ := ((seperate_separated o stateSets).conflicted key ids).mp hids
    exact ⟨(mem_stateKeys o stateSets key).mp hmem, hnot⟩
  · exact fun h => mem_of_lookup (((seperate_separated o stateSets).conflicted key _).mpr
      ⟨(mem_stateKeys o stateSets key).mpr h.1, h.2, rfl⟩)

theorem mem_conflicted_values :
    e ∈ ((seperate o stateSets).2.items.map Prod.snd).flatten ↔ ConflictedEvent stateSets e := by
  have hids : ∀ key, e ∈ (stateSets.map (·.lookup key)).dedup.filterMap id ↔
      ∃ s ∈ stateSets, s.lookup key = some e := by
    intro key
    rw [mem_filterMap]
    simp only [id, mem_dedup, mem_map]
    refine ⟨?_, fun ⟨s, hs, hse⟩ => ⟨some e, ⟨s, hs, hse⟩, rfl⟩⟩
    rintro ⟨_, ⟨s, hs, hse⟩, rfl⟩
    exact ⟨s, hs, hse⟩
  rw [mem_flatten]
  constructor
  · rintro ⟨ids, hmem, he⟩
    obtain ⟨⟨key, ids'⟩, hitem, rfl⟩ := mem_map.mp hmem
    obtain ⟨hkey, hnot, hval⟩ :=
      ((seperate_separated o stateSets).conflicted key ids').mp (mem_items.mp hitem)
    refine ⟨key, ⟨(mem_stateKeys o stateSets key).mp hkey, hnot⟩, (hids key).mp ?_⟩
    rw [← hval]
    exact he
  · rintro ⟨key, hconf, h⟩
    exact ⟨_, mem_map.mpr ⟨(key, _), mem_items.mpr
      (((seperate_separated o stateSets).conflicted key _).mpr
        ⟨(mem_stateKeys o stateSets key).mpr hconf.1, hconf.2, rfl⟩), rfl⟩, (hids key).mpr h⟩

/-! ## The events that are known -/

section
variable {eventMap : EventMap ε ρ} {stateResStore : StateResolutionStore ε ρ}

theorem lookup_knownEvents (e : ε) : (knownEvents eventMap stateResStore).lookup e =
    (eventMap.lookup e).or (stateResStore.events.lookup e) := lookup_update_items

theorem lookup_knownEvents_of_mem {e : ε} (he : e ∈ eventMap) :
    (knownEvents eventMap stateResStore).lookup e = eventMap.lookup e := by
  obtain ⟨event, hevent⟩ := exists_lookup he
  rw [lookup_knownEvents, hevent, Option.some_or]

variable (d : EventMap ε ρ)

theorem sum_items_eq : (d.items.map fun entry => 1 + entry.2.authEventIds.length).sum =
      ∑ n ∈ d.keys.toFinset, (1 + authCount d.lookup n) := by
  rw [sum_toFinset _ d.keys_nodup, ← d.map_fst_items, map_map]
  refine congrArg sum (map_congr_left fun entry hentry => ?_)
  have hlook : d.lookup entry.1 = some entry.2 := mem_items.mp hentry
  show _ = 1 + authCount d.lookup entry.1
  rw [authCount, hlook]
  rfl

/-- `event_map` after the full conflicted set was asked for. -/
theorem lookup_fetched (eventMap : EventMap ε ρ) (stateResStore : StateResolutionStore ε ρ)
    (full : List ε) (hnodup : full.Nodup) (e : ε) : (fetchMissing stateResStore eventMap full).lookup e =
      if e ∈ eventMap ∨ e ∈ full then (knownEvents eventMap stateResStore).lookup e else none := by
  obtain ⟨rows, hrows⟩ : ∃ rows, ((full.filter (· ∉ eventMap)).filterMap fun eid =>
      (stateResStore.events.lookup eid).map (eid, ·)) = rows := ⟨_, rfl⟩
  have hpairs : (rows.map Prod.fst).Nodup := by
    rw [← hrows]
    exact nodup_map_fst_filterMap (by
      rw [map_id']
      exact hnodup.filter _)
  have hpair : ∀ event, (e, event) ∈ rows ↔
      (e ∈ full ∧ e ∉ eventMap) ∧ stateResStore.events.lookup e = some event := by
    intro event
    rw [← hrows, mem_filterMap]
    constructor
    · rintro ⟨eid, hmem, heq⟩
      obtain ⟨event', hevent', heq⟩ := Option.map_eq_some_iff.mp heq
      obtain ⟨rfl, rfl⟩ := Prod.mk.inj heq
      rw [mem_filter, decide_eq_true_iff] at hmem
      exact ⟨hmem, hevent'⟩
    · rintro ⟨hmem, hevent⟩
      refine ⟨e, ?_, by rw [hevent]; rfl⟩
      rw [mem_filter, decide_eq_true_iff]
      exact hmem
  have hkey : e ∈ rows.map Prod.fst → e ∉ eventMap := by
    intro hmem
    obtain ⟨⟨e', event⟩, hp, rfl⟩ := mem_map.mp hmem
    exact ((hpair event).mp hp).1.2
  refine Option.ext fun event => ?_
  rw [fetchMissing, hrows, lookup_update hpairs, hpair]
  by_cases he : e ∈ eventMap
  · obtain ⟨event', hevent'⟩ := exists_lookup he
    rw [if_pos (.inl he), lookup_knownEvents, hevent', Option.some_or]
    simp only [he, not_true, and_false, false_and, false_or]
    exact and_iff_right fun hmem => hkey hmem he
  · rw [lookup_knownEvents, lookup_eq_none.mpr he, Option.none_or]
    by_cases hfull : e ∈ full
    · simp [he, hfull]
    · simp [he, hfull]

/-- The loops along auth events have enough rounds. -/
theorem roundsFor_spec (full : List ε) (hfull : ∀ e ∈ full, e ∈ d) :
    1 + ∑ n ∈ full.toFinset, authCount d.lookup n ≤ roundsFor d ∧ d.keys.toFinset.card < roundsFor d := by
  have hsub : full.toFinset ⊆ d.keys.toFinset := fun e he =>
    mem_toFinset.mpr (mem_keys.mp (hfull e (mem_toFinset.mp he)))
  have hle := Finset.sum_le_sum_of_subset (f := authCount d.lookup) hsub
  have hsplit : ∑ n ∈ d.keys.toFinset, (1 + authCount d.lookup n) =
      d.keys.toFinset.card + ∑ n ∈ d.keys.toFinset, authCount d.lookup n := by
    rw [Finset.sum_add_distrib, ← Finset.card_eq_sum_ones]
  unfold roundsFor
  rw [sum_items_eq, hsplit]
  omega

end

/-! ## The whole run over the view -/

/-- A run of the code that ends as the run over the view does. -/
def Matches {α : Type} (x : Except (ResolveError ε ρ) α) (r : Except Stop α) : Prop :=
  match r with
  | .ok a => x = .ok a
  | .error t => ∃ error, x = .error error ∧ error.stop = t

omit [LinearOrder ε] in
theorem Matches.eq_ok {α : Type} {x : Except (ResolveError ε ρ) α} {r : Except Stop α} {a : α}
    (h : Matches x r) (hx : x = .ok a) : r = .ok a := by
  cases r with
  | ok a' => exact congrArg Except.ok (Except.ok.inj (h.symm.trans hx))
  | error t =>
    obtain ⟨error, herror, _⟩ := h
    exact nomatch herror.symm.trans hx

theorem matches_of_reads {α : Type} {events view : View ε ρ} {full : List ε}
    {x : StateT (EventMap ε ρ) (Except (ResolveError ε ρ)) α} {r : Except Stop α}
    (h : CacheReads events view full x r) {cache : EventMap ε ρ}
    (hcache : Coherent events view (· ∈ full) cache) : Matches (x cache >>= fun p => .ok p.1) r := by
  have hrun := h cache hcache
  cases r with
  | ok a =>
    obtain ⟨cache', hx, _⟩ := hrun
    rw [hx]
    rfl
  | error t =>
    obtain ⟨error, hx, ht⟩ := hrun
    refine ⟨error, ?_, ht⟩
    rw [hx]
    rfl

variable [DecidableEq ρ] {stateResStore : StateResolutionStore ε ρ}

section
variable (o) (roomId : ρ) (restrictedJoinRule : Bool)
  (check : AuthCheck ε ρ)

theorem resolveFetched_view
    {known eventMap : EventMap ε ρ} (all : List ε) (unconflicted : StateMap ε)
    (hshows : ∀ e, (eventMap.lookup e).or (stateResStore.events.lookup e) = known.lookup e) :
    (∃ e event, eventMap.lookup e = some event ∧ event.roomId ≠ roomId) ∧
      Matches (resolveFetched o roomId restrictedJoinRule check (roundsFor known) stateResStore eventMap
        all unconflicted) (.error .raised) ∨
    (∀ e event, eventMap.lookup e = some event → event.roomId = roomId) ∧
      InRoom known.lookup roomId (all.filter (· ∈ eventMap)) ∧
      Matches (resolveFetched o roomId restrictedJoinRule check (roundsFor known) stateResStore eventMap
        all unconflicted)
        (resolveConflicted (viewAccess known.lookup) roomId restrictedJoinRule check o (roundsFor known)
          (all.filter (· ∈ eventMap)) unconflicted) := by
  unfold resolveFetched
  cases hfind : (o.eventMap.order eventMap.items).find? fun entry => entry.2.roomId ≠ roomId with
  | some entry =>
    have hmem := o.eventMap.mem_order.mp (mem_of_find?_eq_some hfind)
    have hroom := find?_some hfind
    rw [decide_eq_true_iff] at hroom
    exact .inl ⟨⟨entry.1, entry.2, mem_items.mp hmem, hroom⟩, _, rfl, rfl⟩
  | none =>
    have hall : ∀ e event, eventMap.lookup e = some event → event.roomId = roomId := by
      intro e event he
      have h := find?_eq_none.mp hfind (e, event) (o.eventMap.mem_order.mpr (mem_items.mpr he))
      rw [decide_eq_true_iff] at h
      exact not_not.mp h
    have hfull : ∀ e ∈ all.filter (· ∈ eventMap), e ∈ eventMap :=
      fun e he => of_decide_eq_true (mem_filter.mp he).2
    have hknown : ∀ e event, eventMap.lookup e = some event → known.lookup e = some event := by
      intro e event he
      rw [← hshows, he, Option.some_or]
    have hin : InRoom known.lookup roomId (all.filter (· ∈ eventMap)) := by
      intro e he
      obtain ⟨event, hevent⟩ := exists_lookup (hfull e he)
      exact ⟨event, hknown e event hevent, hall e event hevent⟩
    have hrounds := roundsFor_spec known (all.filter (· ∈ eventMap)) fun e he => by
      obtain ⟨event, hevent, _⟩ := hin e he
      exact mem_of_lookup hevent
    refine .inr ⟨hall, hin, ?_⟩
    exact matches_of_reads (reads_resolveConflicted hin hrounds.1 unconflicted) ⟨hshows, hfull⟩

theorem resolveEventsWithStore_of_agreed {eventMap : Option (EventMap ε ρ)}
    (h : ¬∃ key, Conflicted stateSets key) : resolveEventsWithStore o roomId restrictedJoinRule check
      stateSets eventMap stateResStore = .ok (seperate o stateSets).1 :=
  if_pos (conflicted_keys_eq_nil.mpr (not_exists.mp h))

/-- What a run does once the auth chain difference is known: it raises if an event is in another room,
and otherwise it resolves the known part of the full conflicted set. -/
theorem resolveEventsWithStore_view {eventMap : Option (EventMap ε ρ)} {diff : List ε}
    (hconf : ∃ key, Conflicted stateSets key)
    (hdiff : getAuthChainDifference stateSets (eventMap.getD ∅) stateResStore = .ok diff) :
    let known := knownEvents (eventMap.getD ∅) stateResStore
    ∃ full, full.Nodup ∧ (∀ e, e ∈ full ↔ (ConflictedEvent stateSets e ∨ e ∈ diff) ∧ e ∈ known) ∧
      ((∃ e event, (e ∈ eventMap.getD ∅ ∨ e ∈ full) ∧ known.lookup e = some event ∧
          event.roomId ≠ roomId) ∧
        Matches (resolveEventsWithStore o roomId restrictedJoinRule check stateSets eventMap
          stateResStore) (.error .raised) ∨
      (∀ e event, e ∈ eventMap.getD ∅ ∨ e ∈ full → known.lookup e = some event → event.roomId = roomId) ∧
        InRoom known.lookup roomId full ∧
        Matches (resolveEventsWithStore o roomId restrictedJoinRule check stateSets eventMap
          stateResStore)
          (resolveConflicted (viewAccess known.lookup) roomId restrictedJoinRule check o
            (roundsFor known) full (seperate o stateSets).1)) := by
  intro known
  have hkeys : (seperate o stateSets).2.keys ≠ [] := fun hnil => by
    obtain ⟨key, hkey⟩ := hconf
    exact conflicted_keys_eq_nil.mp hnil key hkey
  obtain ⟨all, heq⟩ : ∃ all, (((seperate o stateSets).2.items.map Prod.snd).flatten ++ diff).dedup = all :=
    ⟨_, rfl⟩
  have hrun : resolveEventsWithStore o roomId restrictedJoinRule check stateSets eventMap
      stateResStore = resolveFetched o roomId restrictedJoinRule check (roundsFor known) stateResStore
        (fetchMissing stateResStore (eventMap.getD ∅) all) all (seperate o stateSets).1 := by
    unfold resolveEventsWithStore
    rw [if_neg hkeys, hdiff, ← heq]
    rfl
  have hall : ∀ e, e ∈ all ↔ ConflictedEvent stateSets e ∨ e ∈ diff := by
    intro e
    rw [← heq, mem_dedup, mem_append, mem_conflicted_values]
  have hnodup : all.Nodup := heq ▸ nodup_dedup _
  have hlook := lookup_fetched (eventMap.getD ∅) stateResStore all hnodup
  rw [hrun]
  -- what follows depends on the lookups of the fetched map only
  generalize fetchMissing stateResStore (eventMap.getD ∅) all = fetched at hlook ⊢
  have hshows : ∀ e, (fetched.lookup e).or (stateResStore.events.lookup e) = known.lookup e := by
    intro e
    have hknown : known.lookup e = _ := lookup_knownEvents e
    rw [hlook]
    split
    · rw [hknown, Option.or_assoc, Option.or_self]
    next hnot =>
      rw [hknown, lookup_eq_none.mpr fun h => hnot (.inl h)]
  have hfetched : ∀ e, e ∈ all → (e ∈ fetched ↔ e ∈ known) := by
    intro e he
    rw [← lookup_isSome, hlook, if_pos (.inr he), ← lookup_isSome]
  have hmem : ∀ e, e ∈ all.filter (· ∈ fetched) ↔
      (ConflictedEvent stateSets e ∨ e ∈ diff) ∧ e ∈ known := by
    intro e
    rw [mem_filter, decide_eq_true_iff, ← hall]
    exact and_congr_right (hfetched e)
  have hentry : ∀ e event, fetched.lookup e = some event ↔
      (e ∈ eventMap.getD ∅ ∨ e ∈ all.filter (· ∈ fetched)) ∧ known.lookup e = some event := by
    intro e event
    rw [hlook, hmem, ← hall]
    split
    next h =>
      refine (and_iff_right_of_imp fun hknown => ?_).symm
      exact h.imp_right fun h => ⟨h, mem_of_lookup hknown⟩
    next h => exact ⟨fun h => (nomatch h), fun h' => absurd (h'.1.imp_right And.left) h⟩
  refine ⟨_, hnodup.filter _, hmem, ?_⟩
  rcases resolveFetched_view o roomId restrictedJoinRule check all (seperate o stateSets).1 hshows
    with ⟨⟨e, event, he, hroom⟩, hrun⟩ | ⟨hroom, hin, hrun⟩
  · exact .inl ⟨⟨e, event, ((hentry e event).mp he).1, ((hentry e event).mp he).2, hroom⟩, hrun⟩
  · exact .inr ⟨fun e event hmem' hknown => hroom e event ((hentry e event).mpr ⟨hmem', hknown⟩), hin,
      hrun⟩

end

/-! ## Two runs -/

/-- Both runs return the same map, or both raise an exception. -/
def SameOutcome (x y : Except (ResolveError ε ρ) (StateMap ε)) : Prop :=
  (∃ d d', x = .ok d ∧ y = .ok d' ∧ SameMap d d') ∨
    ∃ error error', x = .error error ∧ y = .error error' ∧ error.stop = .raised ∧ error'.stop = .raised

omit [LinearOrder ε] [DecidableEq ρ] in
theorem SameOutcome.of_agree {x y : Except (ResolveError ε ρ) (StateMap ε)}
    {r r' : Except Stop (StateMap ε)} (h : Agree .raised SameMap r r') (hx : Matches x r)
    (hy : Matches y r') : SameOutcome x y := by
  rcases h with ⟨d, d', rfl, rfl, hsame⟩ | ⟨rfl, rfl⟩
  · exact .inl ⟨d, d', hx, hy, hsame⟩
  · obtain ⟨error, hx, hstop⟩ := hx
    obtain ⟨error', hy, hstop'⟩ := hy
    exact .inr ⟨error, error', hx, hy, hstop, hstop'⟩

/-- Two runs that know the same events, and have the same of them in the full conflicted set. -/
theorem resolveEventsWithStore_sameOutcome (o o' : ResolveOrders ε) (roomId : ρ)
    (restrictedJoinRule : Bool) (check : AuthCheck ε ρ)
    {eventMap eventMap' : Option (EventMap ε ρ)} {stateResStore' : StateResolutionStore ε ρ}
    (hsets : SameSets stateSets stateSets')
    (hknown : SameMap (knownEvents (eventMap.getD ∅) stateResStore)
      (knownEvents (eventMap'.getD ∅) stateResStore'))
    (hacyclic : Acyclic (AuthEdge (knownEvents (eventMap.getD ∅) stateResStore).lookup))
    (hdiffs : stateSets ≠ [] → ∃ diff diff',
      getAuthChainDifference stateSets (eventMap.getD ∅) stateResStore = .ok diff ∧
      getAuthChainDifference stateSets' (eventMap'.getD ∅) stateResStore' = .ok diff' ∧
      ∀ e ∈ knownEvents (eventMap.getD ∅) stateResStore, ¬ ConflictedEvent stateSets e →
        (e ∈ diff ↔ e ∈ diff'))
    (hroom : ∀ e event, (eventMap.getD ∅).lookup e = some event → event.roomId = roomId)
    (hroom' : ∀ e event, (eventMap'.getD ∅).lookup e = some event → event.roomId = roomId) : SameOutcome
      (resolveEventsWithStore o roomId restrictedJoinRule check stateSets eventMap stateResStore)
      (resolveEventsWithStore o' roomId restrictedJoinRule check stateSets' eventMap'
        stateResStore') := by
  have hunconflicted : SameMap (seperate o stateSets).1 (seperate o' stateSets').1 := by
    refine fun key => Option.ext fun e => ?_
    rw [lookup_unconflicted, lookup_unconflicted]
    exact hsets.agreed
  by_cases hconf : ∃ key, Conflicted stateSets key
  · have hconf' : ∃ key, Conflicted stateSets' key := hconf.imp fun _ => hsets.conflicted_of
    obtain ⟨diff, diff', hdiff, hdiff', hmem⟩ := hdiffs (by
      obtain ⟨key, ⟨s, hs, _⟩, _⟩ := hconf
      exact ne_nil_of_mem hs)
    obtain ⟨full, hnodup, hfull, hrun⟩ := resolveEventsWithStore_view o roomId restrictedJoinRule
      check hconf hdiff
    obtain ⟨full', hnodup', hfull', hrun'⟩ := resolveEventsWithStore_view o' roomId
      restrictedJoinRule check hconf' hdiff'
    have hlookup : (knownEvents (eventMap'.getD ∅) stateResStore').lookup =
        (knownEvents (eventMap.getD ∅) stateResStore).lookup := funext fun e => (hknown e).symm
    have hmemKnown : ∀ e, e ∈ knownEvents (eventMap.getD ∅) stateResStore ↔
        e ∈ knownEvents (eventMap'.getD ∅) stateResStore' := by
      intro e
      rw [← lookup_isSome, ← lookup_isSome, hknown e]
    have hsame : ∀ e, e ∈ full ↔ e ∈ full' := by
      intro e
      rw [hfull, hfull', hmemKnown e]
      refine and_congr_left fun he => ?_
      have hconflicted : ConflictedEvent stateSets e ↔ ConflictedEvent stateSets' e :=
        ⟨hsets.conflictedEvent_of, hsets.symm.conflictedEvent_of⟩
      by_cases hc : ConflictedEvent stateSets e
      · exact iff_of_true (.inl hc) (.inl (hconflicted.mp hc))
      · exact or_congr hconflicted (hmem e ((hmemKnown e).mpr he) hc)
    have hrounds := roundsFor_spec _ full fun e he => ((hfull e).mp he).2
    have hrounds' := roundsFor_spec _ full' fun e he => ((hfull' e).mp he).2
    have huniv : (knownEvents (eventMap'.getD ∅) stateResStore').keys.toFinset =
        (knownEvents (eventMap.getD ∅) stateResStore).keys.toFinset := by
      refine Finset.ext fun e => ?_
      rw [mem_toFinset, mem_toFinset, ← AList.mem_keys, ← AList.mem_keys, hmemKnown e]
    rw [huniv] at hrounds'
    rw [hlookup] at hrun' hrounds'
    -- an event of another room makes both runs raise, whichever map has it
    rcases hrun with ⟨⟨e, event, he, hevent, hne⟩, _, hx, hstop⟩ | ⟨hall, hin, hx⟩
    · rcases hrun' with ⟨_, _, hy, hstop'⟩ | ⟨hall', _, _⟩
      · exact .inr ⟨_, _, hx, hy, hstop, hstop'⟩
      · rcases he with he | he
        · exact absurd (hroom e event ((lookup_knownEvents_of_mem he).symm.trans hevent)) hne
        · exact absurd (hall' e event (.inr ((hsame e).mp he)) ((hknown e).symm.trans hevent)) hne
    · rcases hrun' with ⟨⟨e, event, he, hevent, hne⟩, _⟩ | ⟨_, _, hy⟩
      · rcases he with he | he
        · exact absurd (hroom' e event ((lookup_knownEvents_of_mem he).symm.trans hevent)) hne
        · exact absurd (hall e event (.inr ((hsame e).mpr he)) ((hknown e).trans hevent)) hne
      · refine SameOutcome.of_agree (resolveConflicted_agree hacyclic (fun e he => ?_) hin hnodup
          hnodup' hsame hunconflicted hrounds hrounds') hx hy
        exact mem_toFinset.mpr (mem_keys.mp (lookup_isSome.mp (Option.isSome_iff_ne_none.mpr he)))
  · have hconf' : ¬∃ key, Conflicted stateSets' key :=
      fun ⟨key, hkey⟩ => hconf ⟨key, hsets.symm.conflicted_of hkey⟩
    exact .inl ⟨_, _, resolveEventsWithStore_of_agreed _ _ _ _ hconf,
      resolveEventsWithStore_of_agreed _ _ _ _ hconf',
      hunconflicted⟩

/-! ## Order and repetition -/

/-- The answer of the store depends on the sets that it is asked about, not on how they are listed. -/
def StateResolutionStore.Extensional (stateResStore : StateResolutionStore ε ρ) : Prop :=
  ∀ sets sets' : List (List ε), (∀ S ∈ sets, ∃ S' ∈ sets', ∀ e, e ∈ S ↔ e ∈ S') →
    (∀ S' ∈ sets', ∃ S ∈ sets, ∀ e, e ∈ S' ↔ e ∈ S) → ∀ e, e ∈ stateResStore.getAuthChainDifference sets ↔
      e ∈ stateResStore.getAuthChainDifference sets'

section

omit [LinearOrder ε]

theorem mem_stateMap_values {s : StateMap ε} : e ∈ s.values ↔ ∃ key, s.lookup key = some e := by
  unfold StateMap.values
  rw [mem_map]
  constructor
  · rintro ⟨⟨key, e'⟩, hitem, rfl⟩
    exact ⟨key, mem_items.mp hitem⟩
  · rintro ⟨key, hkey⟩
    exact ⟨(key, e), mem_items.mpr hkey, rfl⟩

theorem SameMap.mem_values {s s' : StateMap ε} (h : SameMap s s') (e : ε) :
    e ∈ s.values ↔ e ∈ s'.values := by
  rw [mem_stateMap_values, mem_stateMap_values]
  exact exists_congr fun key => by rw [h key]

theorem SameSets.values (h : SameSets stateSets stateSets') (S : List ε)
    (hS : S ∈ stateSets.map StateMap.values) :
    ∃ S' ∈ stateSets'.map StateMap.values, ∀ e, e ∈ S ↔ e ∈ S' := by
  obtain ⟨s, hs, rfl⟩ := mem_map.mp hS
  obtain ⟨s', hs', hsame⟩ := h.1 s hs
  exact ⟨_, mem_map.mpr ⟨s', hs', rfl⟩, hsame.mem_values⟩

end

/-- Without an `event_map`, the result does not depend on how the state sets are listed and repeated, or
on how any set or dictionary is walked. -/
theorem resolveEventsWithStore_presentation (o o' : ResolveOrders ε) (roomId : ρ)
    (restrictedJoinRule : Bool) (check : AuthCheck ε ρ)
    (stateSets stateSets' : List (StateMap ε)) (stateResStore : StateResolutionStore ε ρ)
    (hacyclic : Acyclic (AuthEdge stateResStore.events.lookup)) (hstore : stateResStore.Extensional)
    (hsets : SameSets stateSets stateSets') : SameOutcome
      (resolveEventsWithStore o roomId restrictedJoinRule check stateSets none stateResStore)
      (resolveEventsWithStore o' roomId restrictedJoinRule check stateSets' none stateResStore) :=
  resolveEventsWithStore_sameOutcome o o' roomId restrictedJoinRule check hsets (fun _ => rfl) hacyclic
    (fun _ => ⟨_, _, rfl, rfl, fun e _ _ => hstore _ _ hsets.values hsets.symm.values e⟩)
    (fun _ _ h => nomatch h) (fun _ _ h => nomatch h)

omit [DecidableEq ρ] in
theorem extensional_ofEvents (events : EventMap ε ρ) :
    (StateResolutionStore.ofEvents events).Extensional := by
  have hhalf : ∀ sets sets' : List (List ε), (∀ S ∈ sets, ∃ S' ∈ sets', ∀ e, e ∈ S ↔ e ∈ S') →
      ∀ x, ReachDifference (AuthEdge events.lookup) sets x →
        ReachDifference (AuthEdge events.lookup) sets' x := by
    rintro sets sets' h x ⟨⟨S, hS, hreach⟩, T, hT, hnot⟩
    obtain ⟨S', hS', hsame⟩ := h S hS
    obtain ⟨T', hT', hsame'⟩ := h T hT
    refine ⟨⟨S', hS', ?_⟩, T', hT', fun hreach' => hnot ?_⟩
    · obtain ⟨e, he, hex⟩ := hreach
      exact ⟨e, (hsame e).mp he, hex⟩
    · obtain ⟨e, he, hex⟩ := hreach'
      exact ⟨e, (hsame' e).mpr he, hex⟩
  intro sets sets' h h' x
  rw [mem_difference_ofEvents, mem_difference_ofEvents]
  exact ⟨hhalf sets sets' h x, hhalf sets' sets h' x⟩

/-- Every set is walked in the same way. -/
def ResolveOrders.ofIterOrder (o : IterOrder) : ResolveOrders ε :=
  ⟨⟨o, fun _ => o, fun _ => o⟩, o, o, o, o, fun _ => o, o⟩

/-- A room with two topics, by two users. -/
def twoTopics : StateResolutionStore ℕ ℕ :=
  .ofEvents (eventsOf [stateEvent 1 .create "" "@alice" [], stateEvent 2 .powerLevels "" "@alice" [1],
    stateEvent 3 (.other "m.room.topic") "" "@alice" [1, 2],
    stateEvent 4 (.other "m.room.topic") "" "@bob" [1, 2]])

/-- The state of that room with one of the topics. -/
def withTopic (topic : ℕ) : StateMap ℕ :=
  update ∅ [((.create, ""), 1), (powerLevelsKey, 2), ((.other "m.room.topic", ""), topic)]

/-- The second state set is listed first and once more. -/
theorem resolveEventsWithStore_presentation_twoTopics : SameOutcome
      (resolveEventsWithStore (.ofIterOrder .insertion) 0 false (fun _ _ => true)
        [withTopic 3, withTopic 4] none twoTopics)
      (resolveEventsWithStore (.ofIterOrder ⟨reverse, reverse_perm⟩) 0 false (fun _ _ => true)
        [withTopic 4, withTopic 3, withTopic 4] none twoTopics) := by
  refine resolveEventsWithStore_presentation _ _ 0 false _ [withTopic 3, withTopic 4]
    [withTopic 4, withTopic 3, withTopic 4] twoTopics (acyclic_of_items (by decide +kernel))
    (extensional_ofEvents _) ⟨fun s hs => ⟨s, ?_, fun _ => rfl⟩, fun s hs => ⟨s, ?_, fun _ => rfl⟩⟩
  · simp only [mem_cons, not_mem_nil, or_false] at hs ⊢
    exact hs.elim (fun h => .inr (.inl h)) .inl
  · simp only [mem_cons, not_mem_nil, or_false] at hs ⊢
    exact hs.elim .inr fun h => h

end Synapse.State
