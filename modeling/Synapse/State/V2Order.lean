import Synapse.State.V2Cache

/-!
# State resolution does not depend on how its input is presented

Two runs over the same events, with the same full conflicted set and the same unconflicted state, take
the same decisions.  Both find the same power events, and the sorts order them by keys that tell them
apart; so the same events are checked in the same order against the same state.  It does not matter in
which order a check collects its auth events, because it collects them key by key.  The mainline follows
the auth events of one event, which are a list; and the events that are left over are sorted by keys
that tell them apart too.
-/

namespace Synapse.State

open Synapse.Util

variable {ε ρ : Type} [LinearOrder ε] [DecidableEq ρ] {view : View ε ρ} {roomId : ρ}
  {full full' : List ε} {o o' : ResolveOrders ε}

/-- The same map, however it is listed. -/
def SameMap {κ ν : Type} [DecidableEq κ] (d d' : Dict κ ν) : Prop := ∀ k, d.lookup k = d'.lookup k

/-! ## The power events -/

omit [LinearOrder ε] [DecidableEq ρ] in
theorem powerEventsOf_agree (hroom : InRoom view roomId full) {eventIds eventIds' : List ε}
    (hfull : ∀ e ∈ eventIds, e ∈ full) (hmem : ∀ e, e ∈ eventIds ↔ e ∈ eventIds') :
    Agree .raised (fun p p' => (∀ e ∈ p, e ∈ full) ∧ ∀ e, e ∈ p ↔ e ∈ p')
      (powerEventsOf (viewAccess view) eventIds) (powerEventsOf (viewAccess view) eventIds') := by
  have h := powerEventsOf_view hroom eventIds hfull
  have h' := powerEventsOf_view hroom eventIds' fun e he => hfull e ((hmem e).mpr he)
  refine (Agree.of_yields h h' (forall_congr' fun e => imp_congr (hmem e) .rfl)).mono
    fun p p' hp => ⟨fun e he => hfull e ((hp.2.1 e).mp he).1, fun e => ?_⟩
  rw [hp.2.1, hp.2.2, hmem]

omit [LinearOrder ε] [DecidableEq ρ] in
theorem conflictedEdge_congr (hmem : ∀ e, e ∈ full ↔ e ∈ full') :
    ConflictedEdge view full = ConflictedEdge view full' :=
  funext fun _ => funext fun a => propext (and_congr_right fun _ => hmem a)

variable {rounds rounds' : ℕ}

theorem reverseTopologicalPowerSort_agree (hroom : InRoom view roomId full)
    (hmem : ∀ e, e ∈ full ↔ e ∈ full') {powerEvents powerEvents' : List ε}
    (hpower : ∀ p ∈ powerEvents, p ∈ full) (hpowerMem : ∀ e, e ∈ powerEvents ↔ e ∈ powerEvents')
    (hrounds : 1 + ∑ n ∈ full.toFinset, authCount view n ≤ rounds)
    (hrounds' : 1 + ∑ n ∈ full'.toFinset, authCount view n ≤ rounds') : Agree .raised Eq
      (reverseTopologicalPowerSort (viewAccess view) roomId o rounds powerEvents full)
      (reverseTopologicalPowerSort (viewAccess view) roomId o' rounds' powerEvents' full') := by
  have hroom' : InRoom view roomId full' := fun e he => hroom e ((hmem e).mpr he)
  have hpower' : ∀ p ∈ powerEvents', p ∈ full' :=
    fun p hp => (hmem p).mp (hpower p ((hpowerMem p).mpr hp))
  have hnode : ∀ e, SortedNode view full powerEvents e ↔ SortedNode view full' powerEvents' e := by
    intro e
    unfold SortedNode
    rw [conflictedEdge_congr hmem]
    exact exists_congr fun p => and_congr_left fun _ => hpowerMem p
  refine (Agree.of_yields (reverseTopologicalPowerSort_view hroom o hpower hrounds)
    (reverseTopologicalPowerSort_view hroom' o' hpower' hrounds')
    (forall_congr' fun e => imp_congr (hnode e) .rfl)).mono ?_
  rintro sorted sorted' ⟨_, ⟨nodes, hnodes, _, hkahn⟩, nodes', hnodes', _, hkahn'⟩
  obtain rfl : nodes = nodes' := Finset.ext fun e => (hnodes e).trans ((hnode e).trans (hnodes' e).symm)
  rw [← conflictedEdge_congr hmem] at hkahn'
  exact hkahn.unique (fun n _ m _ h => heapKey_injective _ h) hkahn'

/-! ## The auth checks -/

section
variable {restrictedJoinRule : Bool}
  {checkStateDependentAuthRules : AuthCheck ε ρ}

omit [LinearOrder ε]

theorem applyEvent_agree (e : ε) {resolvedState resolvedState' : StateMap ε}
    (hsame : SameMap resolvedState resolvedState') : Agree .raised SameMap
      (applyEvent (viewAccess view) roomId restrictedJoinRule checkStateDependentAuthRules o
        resolvedState e)
      (applyEvent (viewAccess view) roomId restrictedJoinRule checkStateDependentAuthRules o'
        resolvedState' e) := by
  refine (Agree.refl (index_onlyFails e)).bind fun event _ _ heq => ?_
  subst heq
  refine (Agree.refl (ownAuthEvents_onlyFails event)).bind fun own _ _ heq => ?_
  subst heq
  refine (Agree.refl (ofOption_onlyFails rfl _)).bind fun authTypes _ _ heq => ?_
  subst heq
  have hmem : ∀ key, key ∈ (o.authTypes e).order authTypes ↔ key ∈ (o'.authTypes e).order authTypes :=
    fun key => (o.authTypes e).mem_order.trans (o'.authTypes e).mem_order.symm
  have hreadable : ∀ key, KeyReadable view roomId resolvedState key ↔
      KeyReadable view roomId resolvedState' key := by
    intro key
    unfold KeyReadable
    rw [hsame key]
  refine (Agree.of_yields (overlayState_view resolvedState _ own) (overlayState_view resolvedState' _ own)
    (forall_congr' fun key => imp_congr (hmem key) (hreadable key))).bind
    fun authEvents authEvents' _ hauth => ?_
  have hlookup : authEvents.lookup = authEvents'.lookup := by
    refine funext fun key => ?_
    rw [hauth.2.1, hauth.2.2, overlaid, overlaid, hsame key]
    simp only [hmem key]
  refine Agree.ok fun key => ?_
  rw [hlookup]
  split
  · exact hsame key
  · split
    · rw [Dict.lookup_insert_ite, Dict.lookup_insert_ite, hsame key]
    · exact hsame key

theorem iterativeAuthChecks_agree (eventIds : List ε) {baseState baseState' : StateMap ε}
    (hsame : SameMap baseState baseState') : Agree .raised SameMap
      (iterativeAuthChecks (viewAccess view) roomId restrictedJoinRule checkStateDependentAuthRules o
        eventIds baseState)
      (iterativeAuthChecks (viewAccess view) roomId restrictedJoinRule checkStateDependentAuthRules o'
        eventIds baseState') := .foldlM eventIds (fun e _ _ _ h => applyEvent_agree e h) hsame

end

/-! ## The mainline -/

section
variable {l l' : List ε}

omit [DecidableEq ρ] in
/-- Two lists of the same events, sorted by keys that end with the event. -/
theorem insertionSort_heapKey_eq {β : Type} [LinearOrder β] (hperm : l.Perm l')
    {key key' : ε → β} (hkey : ∀ e ∈ l, key e = key' e) :
    (l.insertionSort fun a b => heapKey key a ≤ heapKey key b) =
      l'.insertionSort fun a b => heapKey key' a ≤ heapKey key' b := by
  have hsort := List.perm_insertionSort (fun a b => heapKey key a ≤ heapKey key b) l
  have hsort' := List.perm_insertionSort (fun a b => heapKey key' a ≤ heapKey key' b) l'
  have hsame : ∀ e ∈ l'.insertionSort (fun a b => heapKey key' a ≤ heapKey key' b),
      heapKey key e = heapKey key' e := by
    intro e he
    rw [heapKey, heapKey, hkey e (hperm.mem_iff.mpr (hsort'.mem_iff.mp he))]
  refine List.Perm.eq_of_pairwise (fun a b _ _ hab hba => heapKey_injective key (le_antisymm hab hba))
    (List.pairwise_insertionSort (fun a b => heapKey key a ≤ heapKey key b) l) ?_
    (hsort.trans (hperm.trans hsort'.symm))
  refine (List.pairwise_insertionSort (fun a b => heapKey key' a ≤ heapKey key' b) l').imp_of_mem
    fun ha hb hab => ?_
  rw [hsame _ ha, hsame _ hb]
  exact hab

/-- The sort key of one event that is left over. -/
def mainlineOrder (view : View ε ρ) (rounds : ℕ) (mainline : List ε) (evId : ε) :
    Except Stop (ℕ ×ₗ ℤ) := do
  let event ← (viewAccess view).index evId
  let depth ← getMainlineDepthForEvent (viewAccess view) event.roomId (mainlineMapOf mainline) rounds
    (some event)
  pure (toLex (depth, event.originServerTs))

variable {univ : Finset ε} (hacyclic : Acyclic (AuthEdge view))
  (huniv : ∀ e, view e ≠ none → e ∈ univ)
include hacyclic huniv

omit [LinearOrder ε] in
/-- Following the power levels events goes down. -/
theorem height_lt_of_findAuthEvent {e aid : ε} {event aev : Event ε ρ} {key : StateKey}
    (hevent : view e = some event)
    (h : findAuthEvent (viewAccess view) roomId key event.authEventIds = .ok (some (aid, aev))) :
    view aid = some aev ∧ height (AuthEdge view) univ aid < height (AuthEdge view) univ e := by
  obtain ⟨hmem, haev⟩ := findAuthEvent_some h
  refine ⟨haev, height_lt_of_edge hacyclic (huniv aid ?_) ⟨event, hevent, hmem⟩⟩
  rw [haev]
  exact Option.some_ne_none _

omit [LinearOrder ε] in
theorem mainlineFrom_agree : ∀ (rounds rounds' : ℕ) (pl : ε),
    height (AuthEdge view) univ pl < rounds → height (AuthEdge view) univ pl < rounds' →
    Agree .raised Eq (mainlineFrom (viewAccess view) roomId rounds (some pl))
      (mainlineFrom (viewAccess view) roomId rounds' (some pl))
  | 0, _, _, h, _ => nomatch h
  | _ + 1, 0, _, _, h => nomatch h
  | rounds + 1, rounds' + 1, pl, h, h' => by
    refine (Agree.refl (getEvent_onlyFails pl)).bind fun plEv _ hplEv heq => ?_
    subst heq
    refine (Agree.refl (findAuthEvent_onlyFails _ _)).bind fun next _ hnext heq => ?_
    subst heq
    refine Agree.bind (R := Eq) ?_ fun rest _ _ heq => heq ▸ Agree.ok rfl
    cases next with
    | none =>
      unfold mainlineFrom
      exact .ok rfl
    | some found =>
      have hlt := (height_lt_of_findAuthEvent hacyclic huniv (getEvent_ok hplEv).1 hnext).2
      exact mainlineFrom_agree rounds rounds' found.1 (by omega) (by omega)

theorem getMainlineDepthForEvent_agree (mainlineMap : Dict ε ℕ) :
    ∀ (rounds rounds' : ℕ) (e : ε) (event : Event ε ρ), view e = some event →
    height (AuthEdge view) univ e < rounds → height (AuthEdge view) univ e < rounds' → Agree .raised Eq
      (getMainlineDepthForEvent (viewAccess view) roomId mainlineMap rounds (some event))
      (getMainlineDepthForEvent (viewAccess view) roomId mainlineMap rounds' (some event))
  | 0, _, _, _, _, h, _ => nomatch h
  | _ + 1, 0, _, _, _, _, h => nomatch h
  | rounds + 1, rounds' + 1, e, event, hevent, h, h' => by
    unfold getMainlineDepthForEvent
    cases mainlineMap.lookup event.eventId with
    | some depth => exact .ok rfl
    | none =>
      refine (Agree.refl (findAuthEvent_onlyFails _ _)).bind fun next _ hnext heq => ?_
      subst heq
      cases next with
      | none =>
        unfold getMainlineDepthForEvent
        exact .ok rfl
      | some found =>
        obtain ⟨hfound, hlt⟩ := height_lt_of_findAuthEvent hacyclic huniv hevent hnext
        exact getMainlineDepthForEvent_agree mainlineMap rounds rounds' found.1 found.2
          hfound (by omega) (by omega)

theorem mainlineOrder_agree (hrounds : univ.card < rounds) (hrounds' : univ.card < rounds')
    (mainline : List ε) (e : ε) :
    Agree .raised Eq (mainlineOrder view rounds mainline e) (mainlineOrder view rounds' mainline e) := by
  have hheight := height_le_card (AuthEdge view) univ e
  refine (Agree.refl (index_onlyFails e)).bind fun event _ hindex heq => ?_
  subst heq
  have hevent : view e = some event := index_ok hindex
  refine (getMainlineDepthForEvent_agree hacyclic huniv (mainlineMapOf mainline) rounds rounds' e event
    hevent (by omega) (by omega)).bind fun depth _ _ heq => heq ▸ Agree.ok rfl

theorem mainlineSort_agree (hrounds : univ.card < rounds) (hrounds' : univ.card < rounds')
    (hperm : l.Perm l') (pl : Option ε) :
    Agree .raised Eq (mainlineSort (viewAccess view) roomId rounds l pl)
      (mainlineSort (viewAccess view) roomId rounds' l' pl) := by
  unfold mainlineSort
  by_cases hnil : l = []
  · subst hnil
    rw [if_pos rfl, if_pos hperm.nil_eq.symm]
    exact .ok rfl
  have hnil' : l' ≠ [] := by
    rintro rfl
    exact hnil (List.perm_nil.mp hperm)
  rw [if_neg hnil, if_neg hnil']
  have hmainline : Agree .raised Eq (mainlineFrom (viewAccess view) roomId rounds pl)
      (mainlineFrom (viewAccess view) roomId rounds' pl) := by
    cases pl with
    | none =>
      unfold mainlineFrom
      exact .ok rfl
    | some pl =>
      have hheight := height_le_card (AuthEdge view) univ pl
      exact mainlineFrom_agree hacyclic huniv rounds rounds' pl (by omega) (by omega)
  refine hmainline.bind fun mainline _ _ heq => ?_
  subst heq
  have horder := mainlineOrder_agree hacyclic huniv hrounds hrounds' mainline
  have hok : (∀ e ∈ l, ∃ v, mainlineOrder view rounds mainline e = .ok v) ↔
      ∀ e ∈ l', ∃ v, mainlineOrder view rounds' mainline e = .ok v := by
    refine forall_congr' fun e => imp_congr hperm.mem_iff ?_
    rw [(horder e).eq]
  refine (Agree.of_yields (Yields.ofKeysM l fun e _ => (horder e).onlyFails)
    (Yields.ofKeysM l' fun e _ => (horder e).eq ▸ (horder e).onlyFails) hok).bind ?_
  rintro orderMap orderMap' _ ⟨hread, hvalues, hvalues'⟩
  refine Agree.ok (insertionSort_heapKey_eq hperm fun e he => ?_)
  obtain ⟨v, hv⟩ := hread e he
  rw [Dict.getD_of_lookup (hvalues e he v hv), Dict.getD_of_lookup
    (hvalues' e (hperm.mem_iff.mp he) v ((horder e).eq ▸ hv))]

end

/-! ## The whole -/

theorem resolveConflicted_agree {restrictedJoinRule : Bool}
    {checkStateDependentAuthRules : AuthCheck ε ρ}
    (hacyclic : Acyclic (AuthEdge view)) {univ : Finset ε} (huniv : ∀ e, view e ≠ none → e ∈ univ)
    (hroom : InRoom view roomId full) (hnodup : full.Nodup) (hnodup' : full'.Nodup)
    (hmem : ∀ e, e ∈ full ↔ e ∈ full') {unconflicted unconflicted' : StateMap ε}
    (hsame : SameMap unconflicted unconflicted')
    (hrounds : 1 + ∑ n ∈ full.toFinset, authCount view n ≤ rounds ∧ univ.card < rounds)
    (hrounds' : 1 + ∑ n ∈ full'.toFinset, authCount view n ≤ rounds' ∧ univ.card < rounds') :
    Agree .raised SameMap
      (resolveConflicted (viewAccess view) roomId restrictedJoinRule checkStateDependentAuthRules o
        rounds full unconflicted)
      (resolveConflicted (viewAccess view) roomId restrictedJoinRule checkStateDependentAuthRules o'
        rounds' full' unconflicted') := by
  have hpowerMem : ∀ e, e ∈ o.powerEvents.order full ↔ e ∈ o'.powerEvents.order full' :=
    fun e => o.powerEvents.mem_order.trans ((hmem e).trans o'.powerEvents.mem_order.symm)
  refine (powerEventsOf_agree hroom (fun e => o.powerEvents.mem_order.mp) hpowerMem).bind
    fun powerEvents powerEvents' _ hpower => ?_
  refine (reverseTopologicalPowerSort_agree hroom hmem hpower.1 hpower.2 hrounds.1 hrounds'.1).bind
    fun sorted _ _ heq => ?_
  subst heq
  refine (iterativeAuthChecks_agree sorted hsame).bind fun resolved resolved' _ hresolved => ?_
  have hperm : ((o.leftover.order full).filter (· ∉ sorted)).Perm
      ((o'.leftover.order full').filter (· ∉ sorted)) :=
    (((o.leftover.perm full).trans ((List.perm_ext_iff_of_nodup hnodup hnodup').mpr hmem)).trans
      (o'.leftover.perm full').symm).filter _
  rw [hresolved powerLevelsKey]
  refine (mainlineSort_agree hacyclic huniv hrounds.2 hrounds'.2 hperm _).bind fun leftover _ _ heq => ?_
  subst heq
  refine (iterativeAuthChecks_agree leftover hresolved).bind fun final final' _ hfinal => ?_
  refine Agree.ok fun key => ?_
  rw [Dict.lookup_update_items, Dict.lookup_update_items, hfinal key, hsame key]

end Synapse.State
