import Synapse.Storage.ChainIndex.Persist
import Synapse.Storage.CoverIndexFixup

/-!
# Exactness of the chain cover index

A run persists batches of events, each event once.  Storing a batch keeps the invariant of the index
except that its events are pending; `_add_chain_cover_index` settles them, by indexing them or by
listing them in `event_auth_chain_to_calculate`.  Hence the invariant holds after every batch, and the
index says exactly which indexed events are in the auth chain of which.

The tables that a run leaves are also what the auth chain difference over the cover index relies on:
the index is a chain cover (`IndexInv.chainCover`), and the events that are not in it are listed
(`IndexInv.toCalculate`).
-/

namespace Synapse.Storage

open Synapse.Util Relation List
open Prod (fst mk snd)

variable {ε ρ τ : Type} [LinearOrder ε]

/-- A batch of events that have not been persisted: `Cites` are their auth references. -/
structure NewBatch (Cites : ε → ε → Prop) (T : Tables ε ρ τ) (events : List (EventRecord ε ρ τ)) :
    Prop where
  ids : (events.map (·.eventId)).Nodup
  fresh : ∀ e ∈ events, e.eventId ∉ T.events
  auth : ∀ e ∈ events, e.authEventIds.Nodup
  cites : ∀ e ∈ events, ∀ b, b ∈ e.authEventIds ↔ Cites e.eventId b

/-- The tables after the rows of a batch have been written. -/
def storeBatch (T : Tables ε ρ τ) (events : List (EventRecord ε ρ τ)) : Tables ε ρ τ :=
  { T with
    events := T.events.update (events.map fun e => (e.eventId, ⟨e.roomId, e.stateTuple, e.depth⟩))
    eventAuth := T.eventAuth ++ eventAuthRows events }

section
variable {Cites : ε → ε → Prop} {usesIndex : ρ → Bool} {T : Tables ε ρ τ} {σ : IndexStore ε ρ τ}
  {events : List (EventRecord ε ρ τ)} {e a b : ε} {t : τ}

omit [LinearOrder ε] in
theorem mem_eventAuthRows : (a, b) ∈ eventAuthRows events ↔
    ∃ ev ∈ events, (∃ t, ev.stateTuple = some t) ∧ ev.eventId = a ∧ b ∈ ev.authEventIds := by
  rw [eventAuthRows, mem_flatMap]
  refine exists_congr fun ev => and_congr_right fun _ => ?_
  rw [← Option.isSome_iff_exists]
  split
  next h => simp [h, and_comm]
  next h => simp [h]

omit [LinearOrder ε] in
theorem nodup_eventAuthRows (hids : (events.map (·.eventId)).Nodup)
    (hauth : ∀ ev ∈ events, ev.authEventIds.Nodup) : (eventAuthRows events).Nodup := by
  refine nodup_flatMap.mpr ⟨fun ev hev => ?_, ?_⟩
  · split
    · exact (hauth ev hev).map fun x y hxy => (mk.inj hxy).2
    · exact nodup_nil
  · refine (pairwise_map.mp hids).imp fun {x y} hne => ?_
    rintro ⟨a, b⟩ hx hy
    have hfst : ∀ {ev : EventRecord ε ρ τ}, (a, b) ∈ (if ev.stateTuple.isSome then
        ev.authEventIds.map fun a => (ev.eventId, a) else []) → ev.eventId = a := by
      intro ev hmem
      obtain ⟨_, _, heq⟩ := mem_map.mp (mem_ite_nil_right.mp hmem).2
      exact (mk.inj heq).1
    exact hne ((hfst hx).trans (hfst hy).symm)

variable {row : EventRow ρ τ}

/-- The rows of `events` after a batch: its own rows, and those that were there. -/
theorem lookup_storeBatch (hids : (events.map (·.eventId)).Nodup) :
    (storeBatch T events).events.lookup e = some row ↔
      (∃ ev ∈ events, ev.eventId = e ∧ row = ⟨ev.roomId, ev.stateTuple, ev.depth⟩) ∨
        e ∉ events.map (·.eventId) ∧ T.events.lookup e = some row := by
  have hfst : (events.map fun ev => (ev.eventId, (⟨ev.roomId, ev.stateTuple, ev.depth⟩ :
      EventRow ρ τ))).map fst = events.map (·.eventId) := by
    rw [List.map_map]
    rfl
  rw [storeBatch, Dict.lookup_update (hfst.symm ▸ hids), hfst]
  refine or_congr_left ?_
  simp [eq_comm]

theorem NewBatch.lookup_old (h : NewBatch Cites T events)
    (he : T.events.lookup e = some row) : (storeBatch T events).events.lookup e = some row := by
  refine (lookup_storeBatch h.ids).mpr (.inr ⟨fun hmem => ?_, he⟩)
  obtain ⟨ev, hev, rfl⟩ := mem_map.mp hmem
  exact h.fresh ev hev (Dict.mem_of_lookup he)

theorem NewBatch.stateTuple_old (h : NewBatch Cites T events) (he : T.stateTuple e = some t) :
    (storeBatch T events).stateTuple e = some t := by
  obtain ⟨row, hrow, ht⟩ := Option.bind_eq_some_iff.mp he
  exact stateTuple_eq_some (h.lookup_old hrow) ht

variable {ev : EventRecord ε ρ τ}

theorem NewBatch.lookup_new (h : NewBatch Cites T events)
    (hev : ev ∈ events) : (storeBatch T events).events.lookup ev.eventId =
      some ⟨ev.roomId, ev.stateTuple, ev.depth⟩ :=
  (lookup_storeBatch h.ids).mpr (.inl ⟨ev, hev, rfl, rfl⟩)

/-- **Storing a batch** keeps the invariant, except that the events are pending. -/
theorem IndexInv.store (h : IndexInv Cites usesIndex [] σ) (hbatch : NewBatch Cites σ.tables events) :
    IndexInv Cites usesIndex (events.map (·.eventId))
      { σ with tables := storeBatch σ.tables events } := by
  refine ⟨fun {a b} => ?_, ?_, fun hwait => ?_, fun {e row t} hrow ht huses hun hnot => ?_,
    fun he => ?_, h.closed, h.places, h.last, h.links⟩
  · constructor
    · intro hab
      rcases mem_append.mp hab with hab | hab
      · obtain ⟨⟨t, ht⟩, hcites⟩ := h.auth.mp hab
        exact ⟨⟨t, hbatch.stateTuple_old ht⟩, hcites⟩
      · obtain ⟨ev, hev, ⟨t, ht⟩, rfl, hb⟩ := mem_eventAuthRows.mp hab
        exact ⟨⟨t, stateTuple_eq_some (hbatch.lookup_new hev) ht⟩, (hbatch.cites ev hev b).mp hb⟩
    · rintro ⟨⟨t, ht⟩, hcites⟩
      obtain ⟨row, hrow, ht⟩ := Option.bind_eq_some_iff.mp ht
      refine mem_append.mpr ?_
      rcases (lookup_storeBatch hbatch.ids).mp hrow with ⟨ev, hev, rfl, rfl⟩ | ⟨_, hrow⟩
      · exact .inr (mem_eventAuthRows.mpr ⟨ev, hev, ⟨t, ht⟩, rfl, (hbatch.cites ev hev b).mpr hcites⟩)
      · exact .inl (h.auth.mpr ⟨⟨t, stateTuple_eq_some hrow ht⟩, hcites⟩)
  · refine nodup_append.mpr ⟨h.nodup, nodup_eventAuthRows hbatch.ids hbatch.auth, ?_⟩
    rintro ⟨a, b⟩ hold _ hnew rfl
    obtain ⟨ev, hev, _, rfl, _⟩ := mem_eventAuthRows.mp hnew
    obtain ⟨⟨t, ht⟩, _⟩ := h.auth.mp hold
    exact hbatch.fresh ev hev (mem_events_of_stateTuple ht)
  · obtain ⟨ht, hun⟩ := h.waits hwait
    exact ⟨hbatch.stateTuple_old ht, hun⟩
  · rcases (lookup_storeBatch hbatch.ids).mp hrow with ⟨ev, hev, rfl, _⟩ | ⟨_, hrow⟩
    · exact absurd (mem_map_of_mem hev) hnot
    · exact h.listed hrow ht huses hun not_mem_nil
  · obtain ⟨t, ht⟩ := h.indexed he
    exact ⟨t, hbatch.stateTuple_old ht⟩

/-- Pending events that the index ignores are no longer pending. -/
theorem IndexInv.settle {pending : List ε} (h : IndexInv Cites usesIndex pending σ)
    (hignored : ∀ e ∈ pending, ∀ row t, σ.tables.events.lookup e = some row →
      row.stateTuple = some t → ¬ usesIndex row.roomId = true) :
    IndexInv Cites usesIndex [] σ := by
  refine ⟨h.auth, h.nodup, h.waits, fun {e row t} hrow ht huses hun _ => ?_, h.indexed, h.closed,
    h.places, h.last, h.links⟩
  exact h.listed hrow ht huses hun fun hmem => hignored e hmem row t hrow ht huses

/-- The state events of a batch that the index covers. -/
def indexedEvents (usesIndex : ρ → Bool) (events : List (EventRecord ε ρ τ)) : List (EventRecord ε ρ τ) :=
  events.filter fun e => e.stateTuple.isSome && usesIndex e.roomId

omit [LinearOrder ε] in
theorem mem_indexedEvents : ev ∈ indexedEvents usesIndex events ↔
    ev ∈ events ∧ (∃ t, ev.stateTuple = some t) ∧ usesIndex ev.roomId = true := by
  rw [indexedEvents, mem_filter, Bool.and_eq_true, Option.isSome_iff_exists]

variable {evs : List (EventRecord ε ρ τ)} {ν : Type}

/-- A dictionary made from some events of a batch. -/
theorem lookup_update_events (hids : (evs.map (·.eventId)).Nodup)
    {f : EventRecord ε ρ τ → ν} {v : ν} :
    (Dict.update ∅ (evs.map fun ev => (ev.eventId, f ev))).lookup e = some v ↔
      ∃ ev ∈ evs, ev.eventId = e ∧ f ev = v := by
  rw [Dict.lookup_update (by rwa [List.map_map]), mem_map]
  simp

theorem mem_update_events {f : EventRecord ε ρ τ → ν} :
    e ∈ Dict.update ∅ (evs.map fun ev => (ev.eventId, f ev)) ↔ ∃ ev ∈ evs, ev.eventId = e := by
  rw [Dict.mem_update]
  simp

omit [LinearOrder ε] in
theorem nodup_filterMap_fst (hids : (evs.map (·.eventId)).Nodup) :
    ((evs.filterMap fun ev => ev.stateTuple.map fun t => (ev.eventId, t)).map fst).Nodup := by
  refine pairwise_map.mpr (pairwise_filterMap.mpr ?_)
  refine (pairwise_map.mp hids).imp fun {x y} hne p hp q hq => ?_
  obtain ⟨_, _, rfl⟩ := Option.map_eq_some_iff.mp hp
  obtain ⟨_, _, rfl⟩ := Option.map_eq_some_iff.mp hq
  exact hne

/-- What `_persist_event_auth_chain_txn` passes on. -/
theorem IndexInv.passed (h : IndexInv Cites usesIndex [] σ) (hbatch : NewBatch Cites σ.tables events) :
    Passed (storeBatch σ.tables events)
      (Dict.update ∅ ((indexedEvents usesIndex events).map fun e => (e.eventId, e.roomId)))
      (Dict.update ∅ ((indexedEvents usesIndex events).filterMap fun e =>
        e.stateTuple.map fun t => (e.eventId, t)))
      (Dict.update ∅ ((indexedEvents usesIndex events).map fun e => (e.eventId, e.authEventIds))) := by
  have hids : ((indexedEvents usesIndex events).map (·.eventId)).Nodup :=
    hbatch.ids.sublist (filter_sublist.map _)
  refine ⟨?_, fun {e} he => ?_, fun {e l} hl => ?_, fun {e} he => ?_⟩
  · intro e
    rw [mem_update_events, mem_update_events]
  · obtain ⟨ev, hev, rfl⟩ := mem_update_events.mp he
    obtain ⟨hmem, ⟨t, ht⟩, _⟩ := mem_indexedEvents.mp hev
    have htuple := stateTuple_eq_some (hbatch.lookup_new hmem) ht
    have hlook : (Dict.update ∅ ((indexedEvents usesIndex events).filterMap fun e =>
        e.stateTuple.map fun t => (e.eventId, t))).lookup ev.eventId = some t := by
      refine (Dict.lookup_update (nodup_filterMap_fst hids)).mpr (.inl ?_)
      exact mem_filterMap.mpr ⟨ev, hev, by rw [ht]; rfl⟩
    exact ⟨hlook.trans htuple.symm, Dict.mem_of_lookup hlook⟩
  · obtain ⟨ev, hev, rfl, rfl⟩ := (lookup_update_events hids).mp hl
    obtain ⟨hmem, ⟨t, ht⟩, _⟩ := mem_indexedEvents.mp hev
    refine ⟨hbatch.auth ev hmem, fun b => (hbatch.cites ev hmem b).trans ?_⟩
    rw [(h.store hbatch).auth]
    exact (and_iff_right ⟨t, stateTuple_eq_some (hbatch.lookup_new hmem) ht⟩).symm
  · obtain ⟨ev, hev, rfl⟩ := mem_update_events.mp he
    have hfresh := hbatch.fresh ev (mem_indexedEvents.mp hev).1
    refine ⟨fun hchain => hfresh ?_, fun hwait => hfresh ?_⟩
    · obtain ⟨t, ht⟩ := h.indexed hchain
      exact mem_events_of_stateTuple ht
    · obtain ⟨⟨r, t⟩, hrow⟩ := Dict.exists_lookup hwait
      exact mem_events_of_stateTuple (h.waits hrow).1

end

section
variable [DecidableEq ρ] [DecidableEq τ] {Cites : ε → ε → Prop} {usesIndex : ρ → Bool}
  {σ : IndexStore ε ρ τ} {events : List (EventRecord ε ρ τ)} {o : IterOrder}

/-- **One batch.**  It is persisted without an error, and the invariant holds afterwards. -/
theorem IndexInv.persistBatch (h : IndexInv Cites usesIndex [] σ)
    (hbatch : NewBatch Cites σ.tables events) :
    ∃ σ', persistBatch usesIndex σ (o, events) = some σ' ∧ IndexInv Cites usesIndex [] σ' ∧
      ∀ e, e ∈ σ'.tables.events ↔ e ∈ events.map (·.eventId) ∨ e ∈ σ.tables.events := by
  have hstore := h.store hbatch
  have hnew : (events.any fun e => e.eventId ∈ σ.tables.events) = false :=
    any_eq_false.mpr fun e he hcontra => hbatch.fresh e he (of_decide_eq_true hcontra)
  have hevents : ∀ e, e ∈ (storeBatch σ.tables events).events ↔
      e ∈ events.map (·.eventId) ∨ e ∈ σ.tables.events := by
    intro e
    rw [storeBatch, Dict.mem_update, List.map_map]
    rfl
  -- a pending event that the index covers is among those passed on
  have hpending : ∀ {e row t}, e ∈ events.map (·.eventId) →
      (storeBatch σ.tables events).events.lookup e = some row → row.stateTuple = some t →
      usesIndex row.roomId = true → ∃ ev ∈ indexedEvents usesIndex events, ev.eventId = e ∧
        ev.roomId = row.roomId := by
    intro e row t he hrow ht huses
    obtain ⟨ev, hev, rfl⟩ := mem_map.mp he
    rw [hbatch.lookup_new hev] at hrow
    obtain rfl := Option.some.inj hrow
    exact ⟨ev, mem_indexedEvents.mpr ⟨hev, ⟨t, ht⟩, huses⟩, rfl, rfl⟩
  unfold Storage.persistBatch storeEventTxn persistEventAuthChainTxn
  simp only [hnew, Bool.false_eq_true, if_false, Option.bind_eq_bind, Option.bind_some]
  split
  next hnone =>
    have hstate : ∀ ev ∈ events, ∀ t, ev.stateTuple ≠ some t := by
      intro ev hev t ht
      refine hnone (any_eq_true.mpr ⟨ev, hev, ?_⟩)
      rw [ht]
      rfl
    have hrows : eventAuthRows events = [] := by
      refine eq_nil_iff_forall_not_mem.mpr fun ⟨a, b⟩ hab => ?_
      obtain ⟨ev, hev, ⟨t, ht⟩, _⟩ := mem_eventAuthRows.mp hab
      exact hstate ev hev t ht
    have htables : storeBatch σ.tables events = { σ.tables with
        events := σ.tables.events.update
          (events.map fun e => (e.eventId, ⟨e.roomId, e.stateTuple, e.depth⟩)) } := by
      rw [storeBatch, hrows, append_nil]
    rw [← htables]
    refine ⟨_, rfl, hstore.settle fun e he row t hrow ht huses => ?_, hevents⟩
    obtain ⟨ev, hev, _⟩ := hpending he hrow ht huses
    exact hstate ev (mem_indexedEvents.mp hev).1 _ (mem_indexedEvents.mp hev).2.1.choose_spec
  · split
    next hempty =>
      refine ⟨_, rfl, hstore.settle fun e he row t hrow ht huses => ?_, hevents⟩
      obtain ⟨ev, hev, _⟩ := hpending he hrow ht huses
      exact absurd hempty (ne_nil_of_mem hev)
    · obtain ⟨σ', hrun, hinv, heq⟩ := addChainCoverIndex_spec hstore (h.passed hbatch) (by
        intro e row t he hrow ht huses
        obtain ⟨ev, hev, rfl, hroom⟩ := hpending he hrow ht huses
        have hids : ((indexedEvents usesIndex events).map (·.eventId)).Nodup :=
          hbatch.ids.sublist (filter_sublist.map _)
        exact (lookup_update_events hids).mpr ⟨ev, hev, rfl, hroom⟩)
      exact ⟨σ', hrun, hinv, fun e => by rw [heq]; exact hevents e⟩

end

/-! ## Runs -/

/-- The auth references of the events of a run. -/
def AuthReference {ε ρ τ : Type} (batches : List (IterOrder × List (EventRecord ε ρ τ))) (a b : ε) : Prop :=
  ∃ ev ∈ batches.flatMap snd, ev.eventId = a ∧ b ∈ ev.authEventIds

section
variable {Cites : ε → ε → Prop} {usesIndex : ρ → Bool} {σ : IndexStore ε ρ τ}

theorem IndexInv.empty (hdag : Acyclic Cites) :
    IndexInv Cites usesIndex [] (IndexStore.empty : IndexStore ε ρ τ) where
  auth := iff_of_false not_mem_nil fun h => by
    obtain ⟨t, ht⟩ := h.1
    exact absurd ht (by simp [IndexStore.empty, Tables.stateTuple])
  nodup := nodup_nil
  waits h := absurd h (by simp [IndexStore.empty])
  listed h := absurd h (by simp [IndexStore.empty])
  indexed h := absurd h (AList.notMem_empty _)
  closed h := absurd h (AList.notMem_empty _)
  places := ⟨hdag, nofun, nofun, nofun⟩
  last := nofun
  links := ⟨fun h => absurd h not_mem_nil, nofun, nofun⟩

/-- The index says which indexed events are in the auth chain of which. -/
theorem IndexInv.transGen_iff (h : IndexInv Cites usesIndex [] σ) {a b : ε} {p q : ChainPos}
    (ha : σ.tables.place a = some p) (hb : σ.tables.place b = some q) : TransGen Cites a b ↔
      (p.1 = q.1 ∧ q.2 < p.2) ∨ LinkCovers σ.tables.eventAuthChainLinks p q := by
  obtain ⟨c, s⟩ := p
  obtain ⟨d, t⟩ := q
  constructor
  · intro hab
    by_cases hcd : c = d
    · subst hcd
      exact .inl ⟨rfl, h.places.lt_of_transGen ha hb hab⟩
    · exact .inr (h.links.complete ha hb hcd hab)
  · rintro (⟨rfl, hlt⟩ | ⟨s', t', hrow, hs, ht⟩)
    · exact h.places.below ha hb hlt
    · obtain ⟨_, x, y, hx, hy, hxy⟩ := h.links.sound hrow
      exact .trans_right (h.places.reflTransGen_of_le ha hx hs)
        (hxy.trans_left (h.places.reflTransGen_of_le hy hb ht))

omit [LinearOrder ε] in
/-- Every event of a batch is new when its batch comes. -/
theorem newBatch_of_run {batches done rest : List (IterOrder × List (EventRecord ε ρ τ))}
    {o : IterOrder} {events : List (EventRecord ε ρ τ)} {T : Tables ε ρ τ}
    (heq : batches = done ++ (o, events) :: rest)
    (hids : ((batches.flatMap snd).map (·.eventId)).Nodup)
    (hauth : ∀ ev ∈ batches.flatMap snd, ev.authEventIds.Nodup)
    (hevents : ∀ e, e ∈ T.events ↔ e ∈ (done.flatMap snd).map (·.eventId)) :
    NewBatch (AuthReference batches) T events := by
  have hflat : batches.flatMap snd = done.flatMap snd ++ (events ++ rest.flatMap snd) := by
    rw [heq, flatMap_append, flatMap_cons]
  have hmem : ∀ ev ∈ events, ev ∈ batches.flatMap snd := fun ev hev => by
    rw [hflat]
    exact mem_append_right _ (mem_append_left _ hev)
  have hsplit := hids
  rw [hflat, map_append, map_append, nodup_append, nodup_append] at hsplit
  refine ⟨hsplit.2.1.1, fun ev hev hpersisted => ?_, fun ev hev => hauth ev (hmem ev hev),
    fun ev hev b => ⟨fun hb => ⟨ev, hmem ev hev, rfl, hb⟩, ?_⟩⟩
  · exact hsplit.2.2 _ ((hevents _).mp hpersisted) _
      (mem_append_left _ (mem_map_of_mem hev)) rfl
  · rintro ⟨ev', hev', hid, hb⟩
    rwa [inj_on_of_nodup_map hids hev' (hmem ev hev) hid] at hb

section
variable [DecidableEq ρ] [DecidableEq τ] (usesIndex : ρ → Bool)
  (batches : List (IterOrder × List (EventRecord ε ρ τ))) (hdag : Acyclic (AuthReference batches))
  (hids : ((batches.flatMap snd).map (·.eventId)).Nodup)
  (hauth : ∀ ev ∈ batches.flatMap snd, ev.authEventIds.Nodup)
include hdag hids hauth

/-- A run is a sequence of batches that each keep the invariant. -/
theorem persistRun_spec : ∃ σ, persistRun usesIndex batches = some σ ∧
      IndexInv (AuthReference batches) usesIndex [] σ := by
  obtain ⟨σ, hrun, hinv, _⟩ := foldlM_inv
    (I := fun done σ => IndexInv (AuthReference batches) usesIndex [] σ ∧
      ∀ e, e ∈ σ.tables.events ↔ e ∈ (done.flatMap snd).map (·.eventId)) batches
    (by
      rintro done ⟨o, events⟩ rest σ heq ⟨hinv, hevents⟩
      obtain ⟨σ', hrun, hinv', hevents'⟩ :=
        hinv.persistBatch (newBatch_of_run heq hids hauth hevents)
      refine ⟨σ', hrun, hinv', fun e => ?_⟩
      rw [hevents', hevents, flatMap_append, map_append, mem_append]
      simp [or_comm])
    ⟨.empty hdag, fun e => by simp [IndexStore.empty]⟩
  exact ⟨σ, hrun, hinv⟩

/-- **The chain cover index is exact.**  Persisting any batches of new events, in any order and with
any order of walking sets, succeeds; then an indexed event is in the auth chain of another exactly if
the index says so, and no two events share a place. -/
theorem persistRun_exact : ∃ σ, persistRun usesIndex batches = some σ ∧
      (∀ a b ca sa cb sb, σ.tables.place a = some (ca, sa) →
        σ.tables.place b = some (cb, sb) → (TransGen (AuthReference batches) a b ↔
          (ca = cb ∧ sb < sa) ∨
            ∃ s₁ s₂, ((ca, s₁), (cb, s₂)) ∈ σ.tables.eventAuthChainLinks ∧ s₁ ≤ sa ∧ sb ≤ s₂)) ∧
      ∀ a b p, σ.tables.place a = some p → σ.tables.place b = some p → a = b := by
  obtain ⟨σ, hrun, hinv⟩ := persistRun_spec usesIndex batches hdag hids hauth
  refine ⟨σ, hrun, fun a b ca sa cb sb ha hb => hinv.transGen_iff ha hb, ?_⟩
  exact fun a b p ha hb => hinv.places.inj ha hb

end

/-- A membership event arrives before the create event that it cites, and then a second membership
event that cites both. -/
def lateCreate : List (IterOrder × List (EventRecord ℕ Unit ℕ)) :=
  [(.insertion, [⟨1, (), some 1, [0], 1⟩]),
   (.insertion, [⟨0, (), some 0, [], 0⟩]),
   (.insertion, [⟨2, (), some 1, [0, 1], 2⟩])]

theorem acyclic_lateCreate : Acyclic (AuthReference lateCreate) := by
  have hall : ∀ ev ∈ lateCreate.flatMap snd, ∀ b ∈ ev.authEventIds, 3 - ev.eventId < 3 - b := by
    decide
  refine .of_lt (f := fun e => 3 - e) fun a b hab => ?_
  obtain ⟨ev, hev, rfl, hb⟩ := hab
  exact hall ev hev b hb

theorem persistRun_exact_lateCreate : (persistRun (fun _ => true) lateCreate).map
        (fun σ => (σ.tables.eventAuthChains.items, σ.tables.eventAuthChainLinks)) =
      some ([(2, 2, 2), (1, 2, 1), (0, 1, 1)], [((2, 1), (1, 1))]) ∧
    ∃ σ, persistRun (fun _ => true) lateCreate = some σ ∧
      (∀ a b ca sa cb sb, σ.tables.place a = some (ca, sa) →
        σ.tables.place b = some (cb, sb) → (TransGen (AuthReference lateCreate) a b ↔
          (ca = cb ∧ sb < sa) ∨
            ∃ s₁ s₂, ((ca, s₁), (cb, s₂)) ∈ σ.tables.eventAuthChainLinks ∧ s₁ ≤ sa ∧ sb ≤ s₂)) ∧
      ∀ a b p, σ.tables.place a = some p → σ.tables.place b = some p → a = b :=
  ⟨by decide, persistRun_exact (fun _ => true) lateCreate acyclic_lateCreate (by decide) (by decide)⟩

end
end Synapse.Storage
