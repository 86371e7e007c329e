import Synapse.State.V2Graph
import Synapse.Util.Outcome

/-!
# State resolution over a fixed set of events

What each function of `synapse.state.v2` returns, and when it raises, in terms of the events that it can
see.  Where the code walks a set, the statement does not mention the order: the power events are a set,
their sort is the order of `Synapse.Util.Kahn`, the auth events of a check are given key by key, and the
events that are left over are sorted by keys that tell them apart.
-/

namespace Synapse.State

open Synapse.Util Relation List

variable {ε ρ : Type} {view : View ε ρ} {roomId : ρ}

/-! ## Looking events up -/

section
variable [DecidableEq ρ]

theorem getEventOrNone_onlyFails (e : ε) :
    OnlyFails .raised (getEventOrNone (viewAccess view) roomId e) := by
  rw [getEventOrNone_view]
  cases view e with
  | none => exact .ok _
  | some event =>
    dsimp only
    split
    · exact .ok _
    · exact .error

theorem getEvent_onlyFails (e : ε) : OnlyFails .raised (getEvent (viewAccess view) roomId e) := by
  refine (getEventOrNone_onlyFails e).bind fun found _ => ?_
  cases found with
  | none => exact .error
  | some event => exact .ok _

variable {event : Event ε ρ} {e : ε}

theorem getEventOrNone_some (h : getEventOrNone (viewAccess view) roomId e = .ok (some event)) :
    view e = some event ∧ event.roomId = roomId := by
  rw [getEventOrNone_view] at h
  cases hview : view e with
  | none =>
    rw [hview] at h
    exact nomatch h
  | some event' =>
    rw [hview] at h
    dsimp only at h
    split at h
    next hroom =>
      obtain rfl : event' = event := Option.some.inj (Except.ok.inj h)
      exact ⟨rfl, hroom⟩
    · exact nomatch h

theorem getEvent_ok (h : getEvent (viewAccess view) roomId e = .ok event) :
    view e = some event ∧ event.roomId = roomId := by
  obtain ⟨found, hfound, h⟩ := bind_eq_ok.mp h
  cases found with
  | none => exact nomatch h
  | some event' =>
    obtain rfl : event' = event := Except.ok.inj h
    exact getEventOrNone_some hfound

theorem findAuthEvent_onlyFails (key : StateKey) : ∀ aids : List ε,
    OnlyFails .raised (findAuthEvent (viewAccess view) roomId key aids)
  | [] => .ok _
  | aid :: aids => by
    refine (getEventOrNone_onlyFails aid).bind fun found _ => ?_
    cases found with
    | none => exact findAuthEvent_onlyFails key aids
    | some aev =>
      dsimp only
      split
      · exact .ok _
      · exact findAuthEvent_onlyFails key aids

theorem findAuthEvent_some {key : StateKey} {aid : ε} {aev : Event ε ρ} : ∀ {aids : List ε},
    findAuthEvent (viewAccess view) roomId key aids = .ok (some (aid, aev)) →
      aid ∈ aids ∧ view aid = some aev
  | [], h => nomatch h
  | aid' :: aids, h => by
    obtain ⟨found, hfound, h⟩ := bind_eq_ok.mp h
    cases found with
    | none =>
      obtain ⟨hmem, hview⟩ := findAuthEvent_some h
      exact ⟨mem_cons_of_mem _ hmem, hview⟩
    | some aev' =>
      dsimp only at h
      split at h
      · obtain ⟨rfl, rfl⟩ := Prod.mk.inj (Option.some.inj (Except.ok.inj h))
        exact ⟨mem_cons_self, (getEventOrNone_some hfound).1⟩
      · obtain ⟨hmem, hview⟩ := findAuthEvent_some h
        exact ⟨mem_cons_of_mem _ hmem, hview⟩

omit [DecidableEq ρ] in
theorem ofOption_onlyFails {α : Type} {error : ResolveError ε ρ} (herror : error.stop = .raised)
    (x : Option α) : OnlyFails .raised ((viewAccess view).ofOption error x) := by
  cases x with
  | some a => exact .ok a
  | none =>
    show OnlyFails .raised (.error error.stop)
    rw [herror]
    exact .error

theorem getPowerLevelForSender_onlyFails (e : ε) :
    OnlyFails .raised (getPowerLevelForSender (viewAccess view) roomId e) := by
  refine (getEvent_onlyFails e).bind fun event _ => (findAuthEvent_onlyFails _ _).bind fun pl _ => ?_
  cases pl with
  | some pl => exact ofOption_onlyFails rfl _
  | none =>
    refine (findAuthEvent_onlyFails _ _).bind fun create _ => ?_
    cases create with
    | some create => exact .ok _
    | none => exact .ok _

end

variable {full : List ε}

/-! ## The power events -/

/-- Whether `_is_power_event` raises no exception for an event. -/
def Readable (view : View ε ρ) (e : ε) : Prop :=
  ∀ event, view e = some event → isPowerEvent event ≠ none

def PowerEvent (view : View ε ρ) (e : ε) : Prop :=
  ∃ event, view e = some event ∧ isPowerEvent event = some true

theorem powerEventsOf_view (hroom : InRoom view roomId full) (eventIds : List ε)
    (hfull : ∀ e ∈ eventIds, e ∈ full) :
    Yields .raised (powerEventsOf (viewAccess view) eventIds) (∀ e ∈ eventIds, Readable view e)
      fun powerEvents => ∀ e, e ∈ powerEvents ↔ e ∈ eventIds ∧ PowerEvent view e := by
  refine Yields.foldlM
    (I := fun done powerEvents => ∀ e, e ∈ powerEvents ↔ e ∈ done ∧ PowerEvent view e) eventIds ?_
    (by simp)
  intro done e rest powerEvents heq hI
  obtain ⟨event, hevent, _⟩ := hroom e (hfull e (heq ▸ mem_append_cons_self))
  have hpower : PowerEvent view e ↔ isPowerEvent event = some true := by
    unfold PowerEvent
    rw [hevent]
    simp
  have hread : Readable view e ↔ isPowerEvent event ≠ none := by
    unfold Readable
    rw [hevent]
    simp
  rw [viewAccess_index hevent]
  show Yields .raised ((viewAccess view).ofOption .keyError (isPowerEvent event) >>= _) _ _
  cases hcase : isPowerEvent event with
  | none => exact .inr ⟨fun h => hread.mp h hcase, rfl⟩
  | some isPower =>
    refine .inl ⟨hread.mpr (hcase ▸ Option.some_ne_none _), _, rfl, fun e' => ?_⟩
    rw [hcase] at hpower
    have hiff : PowerEvent view e ↔ isPower = true := by simpa using hpower
    cases isPower with
    | true =>
      show e' ∈ powerEvents ++ [e] ↔ _
      rw [mem_append, mem_append, hI, mem_singleton]
      constructor
      · rintro (h | rfl)
        · exact ⟨.inl h.1, h.2⟩
        · exact ⟨.inr rfl, hiff.mpr rfl⟩
      · rintro ⟨h | rfl, hp⟩
        · exact .inl ⟨h, hp⟩
        · exact .inr rfl
    | false =>
      show e' ∈ powerEvents ↔ _
      rw [hI, mem_append, mem_singleton]
      refine and_congr_left fun hp => ⟨.inl, ?_⟩
      rintro (h | rfl)
      · exact h
      · exact absurd (hiff.mp hp) Bool.false_ne_true

/-! ## The sort of the power events -/

variable [LinearOrder ε]

section
variable [DecidableEq ρ]

/-- The level of the sender of an event and its timestamp, as the sort compares them. -/
def powerOrder (view : View ε ρ) (roomId : ρ) (e : ε) : (ℤ ×ₗ ℤ) ×ₗ ε := toLex (toLex
    (-((getPowerLevelForSender (viewAccess view) roomId e).toOption.getD 0),
      ((view e).map fun event => event.originServerTs).getD 0), e)

theorem getPowerOrder_view (hroom : InRoom view roomId full) (o : ResolveOrders ε) (nodes : List ε)
    (hfull : ∀ e ∈ nodes, e ∈ full) : Yields .raised (getPowerOrder (viewAccess view) roomId o nodes)
      (∀ e ∈ nodes, ∃ pl, getPowerLevelForSender (viewAccess view) roomId e = .ok pl)
      fun d => ∀ e ∈ nodes, toLex (d.getD e (toLex (0, 0)), e) = powerOrder view roomId e := by
  have hmem : ∀ e, e ∈ o.nodes.order nodes ↔ e ∈ nodes := fun e => o.nodes.mem_order
  refine Yields.congr_ok ((Yields.ofKeysM _ fun e _ => getPowerLevelForSender_onlyFails e).bind_ok
    fun hok eventToPl hpl => ?_) (forall_congr' fun e => imp_congr (hmem e) .rfl)
  have hread : ∀ e ∈ nodes, ∃ v, (do
      let ev ← (viewAccess view).index e
      pure (toLex (-eventToPl.getD e 0, ev.originServerTs))) = .ok v ∧
      toLex (v, e) = powerOrder view roomId e := by
    intro e he
    obtain ⟨event, hevent, _⟩ := hroom e (hfull e he)
    obtain ⟨pl, hlevel⟩ := hok e ((hmem e).mpr he)
    refine ⟨toLex (-pl, event.originServerTs), ?_, ?_⟩
    · rw [viewAccess_index hevent, Dict.getD_of_lookup (hpl e ((hmem e).mpr he) pl hlevel)]
      rfl
    · unfold powerOrder
      rw [hlevel, hevent]
      rfl
  obtain ⟨d, hd, hvalues⟩ := (Yields.ofKeysM (t := Stop.raised) nodes fun e he => by
    obtain ⟨v, hv, _⟩ := hread e he
    exact hv ▸ OnlyFails.ok v).exists_ok fun e he => (hread e he).imp fun _ h => h.1
  refine ⟨d, hd, fun e he => ?_⟩
  obtain ⟨v, hv, hkey⟩ := hread e he
  rw [Dict.getD_of_lookup (hvalues e he v hv), hkey]

/-- The events that the sort orders. -/
def SortedNode (view : View ε ρ) (full powerEvents : List ε) (e : ε) : Prop :=
  ∃ p ∈ powerEvents, ReflTransGen (ConflictedEdge view full) p e

theorem reverseTopologicalPowerSort_view (hroom : InRoom view roomId full) (o : ResolveOrders ε)
    {powerEvents : List ε} (hpower : ∀ p ∈ powerEvents, p ∈ full) {rounds : ℕ}
    (hrounds : 1 + ∑ n ∈ full.toFinset, authCount view n ≤ rounds) :
    Yields .raised (reverseTopologicalPowerSort (viewAccess view) roomId o rounds powerEvents full)
      (∀ e, SortedNode view full powerEvents e →
        ∃ pl, getPowerLevelForSender (viewAccess view) roomId e = .ok pl)
      fun sorted => ∃ nodes : Finset ε, (∀ e, e ∈ nodes ↔ SortedNode view full powerEvents e) ∧
        (∀ e ∈ nodes, e ∈ full) ∧
        KahnOrder (ConflictedEdge view full) (heapKey (powerOrder view roomId)) nodes sorted := by
  obtain ⟨graph, hgraph, hof⟩ := foldlM_addEventAndAuthChainToGraph hroom hpower hrounds
  unfold reverseTopologicalPowerSort
  rw [hgraph]
  have hnodes : ∀ e, e ∈ graph.keys ↔ SortedNode view full powerEvents e :=
    fun e => AList.mem_keys.symm.trans (hof.mem e)
  have hfull : ∀ e ∈ graph.keys, e ∈ full := fun e he => hof.full e (AList.mem_keys.mpr he)
  refine Yields.congr_ok ((getPowerOrder_view hroom o graph.keys hfull).bind_ok
    fun _ d hd => ⟨_, rfl, graph.keys.toFinset, fun e => mem_toFinset.trans (hnodes e),
      fun e he => hfull e (mem_toFinset.mp he), ?_⟩)
    (forall_congr' fun e => imp_congr (hnodes e) .rfl)
  refine ((lexicographicalTopologicalSort_kahn o.toSortOrders graph _ hof.closed).congr
    fun n hn m => hof.edges n (AList.mem_keys.mpr (mem_toFinset.mp hn)) m).congr_key
    fun n hn => ?_
  exact congrArg (fun key => toLex (key, n)) (hd n (mem_toFinset.mp hn))

/-! ## The auth checks -/

/-- The auth event for a key: what the state so far has, if it is asked and not rejected, or else what
the event itself refers to. -/
def overlaid (view : View ε ρ) (resolvedState : StateMap ε) (authTypes : List StateKey)
    (own : StateKey → Option (Event ε ρ)) (key : StateKey) : Option (Event ε ρ) :=
  if key ∈ authTypes then
    match (resolvedState.lookup key).bind view with
    | some ev => if ev.rejected then own key else some ev
    | none => own key
  else own key

/-- The state so far has no event for a key, or one that can be read. -/
def KeyReadable (view : View ε ρ) (roomId : ρ) (resolvedState : StateMap ε)
    (key : StateKey) : Prop :=
  ∀ evId, resolvedState.lookup key = some evId → ∃ ev, getEvent (viewAccess view) roomId evId = .ok ev

omit [LinearOrder ε] in
theorem overlayState_view (resolvedState : StateMap ε) (authTypes : List StateKey)
    (authEvents : Dict StateKey (Event ε ρ)) :
    Yields .raised (overlayState (viewAccess view) roomId resolvedState authTypes authEvents)
      (∀ key ∈ authTypes, KeyReadable view roomId resolvedState key)
      fun d => ∀ key, d.lookup key = overlaid view resolvedState authTypes authEvents.lookup key := by
  refine Yields.foldlM (I := fun done (d : Dict StateKey (Event ε ρ)) =>
    ∀ key, d.lookup key = overlaid view resolvedState done authEvents.lookup key) authTypes ?_
    fun key => (if_neg not_mem_nil).symm
  intro done key rest d _ hd
  have hother : ∀ key', key' ≠ key →
      overlaid view resolvedState (done ++ [key]) authEvents.lookup key' = d.lookup key' := by
    intro key' hne
    rw [hd, overlaid, overlaid]
    simp only [mem_append, mem_singleton, hne, or_false]
  have hself : overlaid view resolvedState (done ++ [key]) authEvents.lookup key =
      match (resolvedState.lookup key).bind view with
      | some ev => if ev.rejected then authEvents.lookup key else some ev
      | none => authEvents.lookup key := if_pos mem_concat_self
  -- Asking for a key that the state does not change anything for.
  have hkeep : (match (resolvedState.lookup key).bind view with
      | some ev => if ev.rejected then authEvents.lookup key else some ev
      | none => authEvents.lookup key) = authEvents.lookup key →
      ∀ key', d.lookup key' = overlaid view resolvedState (done ++ [key]) authEvents.lookup key' := by
    intro hsame key'
    by_cases hne : key' = key
    · subst hne
      rw [hself, hsame, hd, overlaid]
      split
      · exact hsame
      · rfl
    · exact (hother key' hne).symm
  cases hlook : resolvedState.lookup key with
  | none =>
    rw [hlook] at hkeep
    refine .inl ⟨fun evId h => ?_, d, rfl, hkeep rfl⟩
    exact nomatch hlook.symm.trans h
  | some evId =>
    have hreadable : KeyReadable view roomId resolvedState key ↔
        ∃ ev, getEvent (viewAccess view) roomId evId = .ok ev := by
      unfold KeyReadable
      rw [hlook]
      simp
    rw [hlook] at hkeep hself
    refine Yields.congr_ok ((Yields.of_onlyFails (getEvent_onlyFails evId)).bind_ok
      fun _ ev hev => ⟨_, rfl, ?_⟩) hreadable.symm
    have hview : (some evId).bind view = some ev := (getEvent_ok hev).1
    rw [hview] at hkeep hself
    cases hrej : ev.rejected with
    | true => exact hkeep (if_pos hrej)
    | false =>
      intro key'
      by_cases hne : key' = key
      · subst hne
        show AList.lookup key' (d.insert key' ev) = _
        rw [AList.lookup_insert, hself]
        exact (if_neg (by rw [hrej]; exact Bool.false_ne_true)).symm
      · show AList.lookup key' (d.insert key ev) = _
        rw [AList.lookup_insert_ne hne, hother key' hne]

omit [LinearOrder ε] in
theorem ownAuthEvents_onlyFails (event : Event ε ρ) :
    OnlyFails .raised (ownAuthEvents (viewAccess view) roomId event) := by
  refine .foldlM _ ∅ fun authEvents aid _ => (getEventOrNone_onlyFails aid).bind fun found _ => ?_
  cases found with
  | none => exact .ok _
  | some ev => exact .ok _

omit [LinearOrder ε] [DecidableEq ρ] in
theorem index_ok {e : ε} {event : Event ε ρ} (h : (viewAccess view).index e = .ok event) :
    view e = some event := by
  have h' : (match view e with | some event => .ok event | none => .error .raised) =
      (.ok event : Except Stop (Event ε ρ)) := h
  cases hview : view e with
  | none =>
    rw [hview] at h'
    exact nomatch h'
  | some event' =>
    rw [hview] at h'
    exact congrArg some (Except.ok.inj h')

omit [LinearOrder ε] [DecidableEq ρ] in
theorem index_onlyFails (e : ε) : OnlyFails .raised ((viewAccess view).index e) := by
  cases hview : view e with
  | none =>
    have h : (viewAccess view).index e = .error .raised := by
      show (match view e with | some event => _ | none => _) = _
      rw [hview]
    rw [h]
    exact .error
  | some event =>
    rw [viewAccess_index hview]
    exact .ok _

/-! ## The mainline -/

theorem mainlineSort_perm {rounds : ℕ} {eventIds sorted : List ε} {pl : Option ε}
    (h : mainlineSort (viewAccess view) roomId rounds eventIds pl = .ok sorted) :
    sorted.Perm eventIds := by
  unfold mainlineSort at h
  split at h
  next hnil =>
    rw [← Except.ok.inj h, hnil]
  · obtain ⟨mainline, _, h⟩ := bind_eq_ok.mp h
    obtain ⟨orderMap, _, h⟩ := bind_eq_ok.mp h
    rw [← Except.ok.inj h]
    exact perm_insertionSort _ _

end
end Synapse.State
