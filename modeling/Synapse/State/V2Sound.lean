import Synapse.State.V2Resolve

/-!
# What state resolution can return

The walk of `_iterative_auth_checks` starts from the unconflicted state and only ever adds events of the
full conflicted set, each under its own `(type, state_key)` and only after the auth rules accepted it.
The auth events that it is checked against are not rejected; each is one of its own auth events, or
comes from the state so far, that is from the unconflicted state or from an event that was accepted
before.  At the end the unconflicted state is put back over the result.
-/

namespace Synapse.State

open Synapse.Util Relation List

variable {ε ρ : Type} [DecidableEq ρ] {view : View ε ρ} {roomId : ρ}
  {restrictedJoinRule : Bool} {check : AuthCheck ε ρ}
  {unconflicted : StateMap ε}

variable (view check unconflicted)

/-- Where an auth event of a check comes from: it is not rejected, and it is one of the event's own auth
events, in the unconflicted state, or among the events accepted before. -/
def FromWalk (before : List ε) (event : Event ε ρ) (key : StateKey) (a : Event ε ρ) : Prop :=
  a.rejected = false ∧ ∃ aid, view aid = some a ∧
    (aid ∈ event.authEventIds ∧ a.key = key ∨ unconflicted.lookup key = some aid ∨
      aid ∈ before ∧ a.key = key)

/-- The auth rules accepted an event after some others. -/
def AcceptedAt (before : List ε) (e : ε) : Prop :=
  ∃ event authState, view e = some event ∧ event.rejected = false ∧ check event authState = true ∧
    ∀ key a, authState key = some a → FromWalk view unconflicted before event key a

/-- A walk, the last accepted event at the end. -/
inductive Walk : List ε → Prop
  | start : Walk []
  | accept {accepted : List ε} {e : ε} (h : Walk accepted)
      (he : AcceptedAt view check unconflicted accepted e) : Walk (accepted ++ [e])

/-- The state after a walk: what was accepted, under its own key, or is unconflicted. -/
structure WalkState (full accepted : List ε) (resolved : StateMap ε) : Prop where
  walk : Walk view check unconflicted accepted
  full : ∀ e ∈ accepted, e ∈ full
  source : ∀ key e, resolved.lookup key = some e → unconflicted.lookup key = some e ∨
    e ∈ accepted ∧ ∃ event, view e = some event ∧ event.key = key

variable {view check unconflicted} {own : Dict StateKey (Event ε ρ)} {event : Event ε ρ}

theorem ownAuthEvents_ok
    (h : ownAuthEvents (viewAccess view) roomId event = .ok own) (key : StateKey) (a : Event ε ρ)
    (ha : own.lookup key = some a) :
    a.rejected = false ∧ a.key = key ∧ ∃ aid ∈ event.authEventIds, view aid = some a := by
  revert key a
  refine foldlM_preserves (I := fun own => ∀ key a, own.lookup key = some a →
      a.rejected = false ∧ a.key = key ∧ ∃ aid ∈ event.authEventIds, view aid = some a) _
    (fun aid haid own own' hown hstep => ?_) (by simp) h
  obtain ⟨found, hfound, hstep⟩ := bind_eq_ok.mp hstep
  cases found with
  | none =>
    obtain rfl := Except.ok.inj hstep
    exact hown
  | some ev =>
    obtain rfl := Except.ok.inj hstep
    cases hrej : ev.rejected with
    | true => exact hown
    | false =>
      intro key a ha
      rcases Dict.lookup_insert_cases ha with ⟨rfl, rfl⟩ | ⟨_, ha⟩
      · exact ⟨hrej, rfl, aid, haid, (getEventOrNone_some hfound).1⟩
      · exact hown key a ha

variable {full accepted : List ε} {resolved : StateMap ε}

theorem overlaid_fromWalk {authTypes : List StateKey}
    (hstate : WalkState view check unconflicted full accepted resolved)
    (hown : ownAuthEvents (viewAccess view) roomId event = .ok own) {key : StateKey} {a : Event ε ρ}
    (ha : overlaid view resolved authTypes own.lookup key = some a) :
    FromWalk view unconflicted accepted event key a := by
  have hfromOwn : own.lookup key = some a → FromWalk view unconflicted accepted event key a := by
    intro hkey
    obtain ⟨hnot, hakey, aid, haid, haview⟩ := ownAuthEvents_ok hown key a hkey
    exact ⟨hnot, aid, haview, .inl ⟨haid, hakey⟩⟩
  unfold overlaid at ha
  split at ha
  · split at ha
    next ev hev =>
      cases hrej : ev.rejected with
      | true =>
        rw [if_pos hrej] at ha
        exact hfromOwn ha
      | false =>
        rw [if_neg (by rw [hrej]; exact Bool.false_ne_true)] at ha
        obtain rfl := Option.some.inj ha
        obtain ⟨evId, hkey, hview⟩ := Option.bind_eq_some_iff.mp hev
        refine ⟨hrej, evId, hview, .inr ?_⟩
        rcases hstate.source key evId hkey with h | ⟨hmem, ev', hev', hk⟩
        · exact .inl h
        · obtain rfl : ev = ev' := Option.some.inj (hview.symm.trans hev')
          exact .inr ⟨hmem, hk⟩
    · exact hfromOwn ha
  · exact hfromOwn ha

variable {o : ResolveOrders ε}

/-- One turn of the walk. -/
theorem applyEvent_ok {resolved resolved' : StateMap ε} {e : ε}
    (he : e ∈ full) (hstate : WalkState view check unconflicted full accepted resolved)
    (h : applyEvent (viewAccess view) roomId restrictedJoinRule check o resolved e = .ok resolved') :
    ∃ accepted', WalkState view check unconflicted full accepted' resolved' := by
  obtain ⟨event, hindex, h⟩ := bind_eq_ok.mp h
  obtain ⟨own, hown, h⟩ := bind_eq_ok.mp h
  obtain ⟨authTypes, _, h⟩ := bind_eq_ok.mp h
  obtain ⟨authEvents, hauth, h⟩ := bind_eq_ok.mp h
  have hevent := index_ok hindex
  have hlookup := (overlayState_view resolved _ own).of_eq_ok hauth
  have hresolved' := Except.ok.inj h
  split at hresolved'
  · exact ⟨accepted, hresolved' ▸ hstate⟩
  next hrej =>
    split at hresolved'
    next hcheck =>
      have haccepted : AcceptedAt view check unconflicted accepted e :=
        ⟨event, authEvents.lookup, hevent, Bool.not_eq_true _ ▸ hrej, hcheck,
          fun key a ha => overlaid_fromWalk hstate hown ((hlookup key).symm.trans ha)⟩
      refine ⟨accepted ++ [e], hstate.walk.accept haccepted,
        forall_mem_append.mpr ⟨hstate.full, forall_mem_singleton.mpr he⟩, fun key e' hkey => ?_⟩
      rw [← hresolved'] at hkey
      rcases Dict.lookup_insert_cases hkey with ⟨rfl, rfl⟩ | ⟨_, hkey⟩
      · exact .inr ⟨mem_concat_self, event, hevent, rfl⟩
      · exact (hstate.source key e' hkey).imp_right fun h => ⟨mem_append_left _ h.1, h.2⟩
    · exact ⟨accepted, hresolved' ▸ hstate⟩

theorem iterativeAuthChecks_ok {full eventIds accepted : List ε}
    {base resolved : StateMap ε} (hfull : ∀ e ∈ eventIds, e ∈ full)
    (hstate : WalkState view check unconflicted full accepted base)
    (h : iterativeAuthChecks (viewAccess view) roomId restrictedJoinRule check o eventIds base =
      .ok resolved) : ∃ accepted', WalkState view check unconflicted full accepted' resolved := by
  refine foldlM_preserves (I := fun resolved => ∃ accepted,
    WalkState view check unconflicted full accepted resolved) eventIds
    (fun e he resolved resolved' hI hstep => ?_) ⟨accepted, hstate⟩ h
  obtain ⟨accepted, hstate⟩ := hI
  exact applyEvent_ok (hfull e he) hstate hstep

/-! ## The whole run -/

variable [LinearOrder ε]

theorem resolveConflicted_ok {rounds : ℕ} {full : List ε}
    (hroom : InRoom view roomId full) (hrounds : 1 + ∑ n ∈ full.toFinset, authCount view n ≤ rounds)
    (h : resolveConflicted (viewAccess view) roomId restrictedJoinRule check o rounds full
      unconflicted = .ok resolved) :
    ∃ accepted, Walk view check unconflicted accepted ∧ (∀ e ∈ accepted, e ∈ full) ∧
      (∀ key e, unconflicted.lookup key = some e → resolved.lookup key = some e) ∧
      ∀ key e, resolved.lookup key = some e → unconflicted.lookup key = some e ∨
        unconflicted.lookup key = none ∧ e ∈ accepted ∧
          ∃ event, view e = some event ∧ event.key = key := by
  have horder : ∀ e ∈ o.powerEvents.order full, e ∈ full := fun e => o.powerEvents.mem_order.mp
  obtain ⟨powerEvents, hpower, h⟩ := bind_eq_ok.mp h
  obtain ⟨sorted, hsorted, h⟩ := bind_eq_ok.mp h
  obtain ⟨afterPower, hfirst, h⟩ := bind_eq_ok.mp h
  obtain ⟨leftover, hleftover, h⟩ := bind_eq_ok.mp h
  obtain ⟨afterLeftover, hsecond, h⟩ := bind_eq_ok.mp h
  have hpowerFull : ∀ p ∈ powerEvents, p ∈ full := fun p hp =>
    horder p (((powerEventsOf_view hroom _ horder).of_eq_ok hpower p).mp hp).1
  obtain ⟨nodes, _, hnodes, hkahn⟩ :=
    (reverseTopologicalPowerSort_view hroom o hpowerFull hrounds).of_eq_ok hsorted
  obtain ⟨accepted, hstate⟩ := iterativeAuthChecks_ok (fun e he => hnodes e (hkahn.mem_left e he))
    ⟨.start, fun e he => absurd he not_mem_nil, fun key e he => .inl he⟩ hfirst
  obtain ⟨accepted', hstate'⟩ := iterativeAuthChecks_ok (fun e he => o.leftover.mem_order.mp
    (mem_of_mem_filter ((mainlineSort_perm hleftover).mem_iff.mp he))) hstate hsecond
  obtain rfl := Except.ok.inj h
  refine ⟨accepted', hstate'.walk, hstate'.full, fun key e hkey => ?_, fun key e hkey => ?_⟩
  · rw [Dict.lookup_update_items, hkey, Option.some_or]
  · rw [Dict.lookup_update_items] at hkey
    cases hunc : unconflicted.lookup key with
    | some e' =>
      rw [hunc, Option.some_or] at hkey
      exact .inl hkey
    | none =>
      rw [hunc, Option.none_or] at hkey
      rcases hstate'.source key e hkey with h | h
      · exact nomatch hunc.symm.trans h
      · exact .inr ⟨rfl, h⟩

/-- A successful run keeps every key on which the state sets agree; what it returns for a key is an event
with this type and state key, from one of the state sets or from the auth chain difference that
`_get_auth_chain_difference` has returned; and what it returns for a conflicted key was accepted during the
walk. -/
theorem resolveEventsWithStore_sound (o : ResolveOrders ε) (roomId : ρ) (restrictedJoinRule : Bool)
    (check : AuthCheck ε ρ) (stateSets : List (StateMap ε))
    (eventMap : Option (EventMap ε ρ)) (stateResStore : StateResolutionStore ε ρ)
    (hsets : ∀ s ∈ stateSets, ∀ key e, s.lookup key = some e → ∃ event,
      (knownEvents (eventMap.getD ∅) stateResStore).lookup e = some event ∧ event.key = key)
    (resolved : StateMap ε)
    (hrun : resolveEventsWithStore o roomId restrictedJoinRule check stateSets eventMap stateResStore =
      .ok resolved) :
    (∀ key e, Agreed stateSets key e → resolved.lookup key = some e) ∧
    (∀ key e, resolved.lookup key = some e →
      (∃ event, (knownEvents (eventMap.getD ∅) stateResStore).lookup e = some event ∧ event.key = key) ∧
      ((∃ s ∈ stateSets, e ∈ s.values) ∨ ∃ diff,
        getAuthChainDifference stateSets (eventMap.getD ∅) stateResStore = .ok diff ∧ e ∈ diff)) ∧
    ∃ accepted, Walk (knownEvents (eventMap.getD ∅) stateResStore).lookup check
        (seperate o stateSets).1 accepted ∧
      ∀ key, Conflicted stateSets key → ∀ e, resolved.lookup key = some e → e ∈ accepted := by
  have hagreed : ∀ key e, Agreed stateSets key e →
      (∃ event, (knownEvents (eventMap.getD ∅) stateResStore).lookup e = some event ∧
        event.key = key) ∧ ∃ s ∈ stateSets, e ∈ s.values := by
    intro key e h
    obtain ⟨s, hs⟩ := exists_mem_of_ne_nil _ h.1
    exact ⟨hsets s hs key e (h.2 s hs), s, hs, mem_stateMap_values.mpr ⟨key, h.2 s hs⟩⟩
  by_cases hconf : ∃ key, Conflicted stateSets key
  · have hkeys : (seperate o stateSets).2.keys ≠ [] := by
      obtain ⟨key, hkey⟩ := hconf
      exact fun hnil => conflicted_keys_eq_nil.mp hnil key hkey
    obtain ⟨diff, hdiff, _⟩ := bind_eq_ok.mp ((if_neg hkeys).symm.trans hrun)
    obtain ⟨full, _, hfull, hview⟩ := resolveEventsWithStore_view o roomId restrictedJoinRule check
      hconf hdiff
    rcases hview with ⟨_, error, herror, _⟩ | ⟨_, hin, hmatch⟩
    · exact nomatch herror.symm.trans hrun
    have hrounds := roundsFor_spec (knownEvents (eventMap.getD ∅) stateResStore) full
      fun e he => ((hfull e).mp he).2
    obtain ⟨accepted, hwalk, haccepted, hkeep, hsource⟩ := resolveConflicted_ok hin hrounds.1
      (hmatch.eq_ok hrun)
    refine ⟨fun key e h => hkeep key e (lookup_unconflicted.mpr h), fun key e h => ?_, accepted, hwalk,
      fun key hkey e h => ?_⟩
    · rcases hsource key e h with hunc | ⟨_, hacc, hevent⟩
      · exact (hagreed key e (lookup_unconflicted.mp hunc)).imp_right .inl
      · refine ⟨hevent, ((hfull e).mp (haccepted e hacc)).1.imp ?_ fun he => ⟨diff, hdiff, he⟩⟩
        rintro ⟨key', _, s, hs, hse⟩
        exact ⟨s, hs, mem_stateMap_values.mpr ⟨key', hse⟩⟩
    · rcases hsource key e h with hunc | ⟨_, hacc, _⟩
      · exact absurd (lookup_unconflicted.mp hunc) (hkey.2 e)
      · exact hacc
  · obtain rfl : (seperate o stateSets).1 = resolved :=
      Except.ok.inj ((resolveEventsWithStore_of_agreed _ _ _ _ hconf).symm.trans hrun)
    exact ⟨fun key e h => lookup_unconflicted.mpr h,
      fun key e h => (hagreed key e (lookup_unconflicted.mp h)).imp_right .inl, [], .start,
      fun key hkey => absurd ⟨key, hkey⟩ hconf⟩

theorem resolveEventsWithStore_sound_twoTopics : ∃ resolved accepted,
      resolveEventsWithStore (.ofIterOrder .insertion) 0 false (fun _ _ => true)
        [withTopic 3, withTopic 4] none twoTopics = .ok resolved ∧
      resolved.lookup powerLevelsKey = some 2 ∧ Walk (knownEvents ∅ twoTopics).lookup (fun _ _ => true)
        (seperate (.ofIterOrder .insertion) [withTopic 3, withTopic 4]).1 accepted ∧
      ∀ e, resolved.lookup (.other "m.room.topic", "") = some e → e ∈ accepted := by
  have hsome : (resolveEventsWithStore (.ofIterOrder .insertion) 0 false
      (fun _ _ => true) [withTopic 3, withTopic 4] none twoTopics).toOption.isSome = true := by
    decide +kernel
  obtain ⟨resolved, hresolved⟩ := Option.isSome_iff_exists.mp hsome
  have hkeys : ∀ s ∈ [withTopic 3, withTopic 4], ∀ entry ∈ s.items,
      ((knownEvents ∅ twoTopics).lookup entry.2).map Event.key = some entry.1 := by
    decide +kernel
  obtain ⟨hagreed, -, accepted, hwalk, hconf⟩ := resolveEventsWithStore_sound
    (.ofIterOrder .insertion) 0 false (fun _ _ => true) [withTopic 3, withTopic 4]
    none twoTopics (fun s hs key e h =>
      Option.map_eq_some_iff.mp (hkeys s hs (key, e) (Dict.mem_items.mpr h))) resolved
    (eq_ok_of_toOption hresolved)
  refine ⟨resolved, accepted, eq_ok_of_toOption hresolved,
    hagreed powerLevelsKey 2 ⟨cons_ne_nil _ _, by decide +kernel⟩, hwalk,
    hconf (.other "m.room.topic", "") ⟨⟨withTopic 3, mem_cons_self, by decide +kernel⟩, ?_⟩⟩
  rintro e ⟨-, h⟩
  have h3 : some 3 = some e := h (withTopic 3) mem_cons_self
  have h4 : some 4 = some e := h (withTopic 4) (mem_cons_of_mem _ mem_cons_self)
  exact absurd (h3.trans h4.symm) (by decide)

end Synapse.State
