import Synapse.Storage.ChainIndex.Collect

/-!
# The chain cover index over a run

Events are persisted batch by batch: `_store_event_txn` writes their rows, and
`_persist_event_auth_chain_txn` brings the chain cover index up to date.  Auth events may arrive in a
later batch than the events that cite them; the latter wait in `event_auth_chain_to_calculate`.

`IndexInv` is what every batch preserves.  It speaks of the auth references of all events of the run,
also of those still to come: an indexed event cites only indexed events, so nothing that arrives later
changes what it reaches.  From it, the index is exact at every moment of every run.
-/

namespace Synapse.Storage

open Synapse.Util Relation List Dict
open Option (bind_some some.inj)

variable {ε ρ τ : Type} [LinearOrder ε]

/-! ## The code -/

/-- What is read of an event that is being persisted. -/
structure EventRecord (ε ρ τ : Type) where
  eventId : ε
  roomId : ρ
  /-- The type and state key, if this is a state event. -/
  stateTuple : Option τ
  authEventIds : List ε
  depth : ℤ

/-- The tables and the sequence of chain IDs. -/
structure IndexStore (ε ρ τ : Type) where
  tables : Tables ε ρ τ
  lastChainId : ℕ

/-- The rows of `events` and `state_events` that `_store_event_txn` writes; `none` is a row that exists
already. -/
def storeEventTxn (T : Tables ε ρ τ) (events : List (EventRecord ε ρ τ)) : Option (Tables ε ρ τ) :=
  if events.any fun e => e.eventId ∈ T.events then none
  else some { T with
    events := T.events.update (events.map fun e => (e.eventId, ⟨e.roomId, e.stateTuple, e.depth⟩)) }

/-- The rows of `event_auth` for the state events of a batch. -/
def eventAuthRows (events : List (EventRecord ε ρ τ)) : List (ε × ε) :=
  events.flatMap fun e => if e.stateTuple.isSome then e.authEventIds.map fun a => (e.eventId, a) else []

/-- The links out of the chains that have been seen. -/
def loadLinks (o : IterOrder) (links : List (ChainPos × ChainPos)) (chainMap : Dict ε ChainPos) :
    Option LinkMap :=
  (o.order (links.filter fun l => l.1.1 ∈ chainMap.entries.map fun entry => entry.2.1)).foldlM
    (fun M l => (M.addLink l.1 l.2 false).map Prod.snd) LinkMap.empty

/-- `_add_chain_cover_index`. -/
def addChainCoverIndex [DecidableEq ρ] [DecidableEq τ] (o : IterOrder) (σ : IndexStore ε ρ τ)
    (eventToRoomId : Dict ε ρ) (eventToTypes : Dict ε τ) (eventToAuthChain : Dict ε (List ε)) :
    Option (IndexStore ε ρ τ) := do
  let T := σ.tables
  let v ← collect o T eventToRoomId eventToTypes eventToAuthChain
  let (eventsToCalc, toCalculate) ← discardEvents T eventToRoomId v
  if eventsToCalc = [] then
    return { σ with tables := { T with eventAuthChainToCalculate := toCalculate } }
  let (newChainTuples, lastChainId) ← allocateChainIds o T σ.lastChainId v.eventToTypes
    v.eventToAuthChain eventsToCalc v.chainMap
  let chainMap := v.chainMap.update newChainTuples.items
  if newChainTuples.keys.any fun eventId => eventId ∈ T.eventAuthChains then none
  let chainLinks ← loadLinks o T.eventAuthChainLinks chainMap
  let chainLinks ← (sortedTopologically eventsToCalc v.eventToAuthChain).foldlM
    (linkEvent o chainMap v.eventToAuthChain) chainLinks
  return {
    tables := { T with
      eventAuthChains := T.eventAuthChains.update newChainTuples.items
      eventAuthChainToCalculate := toCalculate.eraseAll newChainTuples.keys
      eventAuthChainLinks := T.eventAuthChainLinks ++ chainLinks.getAdditions }
    lastChainId }

/-- `_persist_event_auth_chain_txn`; `usesIndex` is `has_auth_chain_index` of the room. -/
def persistEventAuthChainTxn [DecidableEq ρ] [DecidableEq τ] (usesIndex : ρ → Bool) (o : IterOrder)
    (σ : IndexStore ε ρ τ) (events : List (EventRecord ε ρ τ)) : Option (IndexStore ε ρ τ) :=
  if ¬ events.any fun e => e.stateTuple.isSome then some σ
  else
    let σ := { σ with tables := { σ.tables with
      eventAuth := σ.tables.eventAuth ++ eventAuthRows events } }
    let stateEvents := events.filter fun e => e.stateTuple.isSome && usesIndex e.roomId
    if stateEvents = [] then some σ
    else
      addChainCoverIndex o σ
        (update ∅ (stateEvents.map fun e => (e.eventId, e.roomId)))
        (update ∅ (stateEvents.filterMap fun e => e.stateTuple.map fun t => (e.eventId, t)))
        (update ∅ (stateEvents.map fun e => (e.eventId, e.authEventIds)))

/-- One batch: its rows, then the index. -/
def persistBatch [DecidableEq ρ] [DecidableEq τ] (usesIndex : ρ → Bool) (σ : IndexStore ε ρ τ)
    (batch : IterOrder × List (EventRecord ε ρ τ)) : Option (IndexStore ε ρ τ) := do
  let T ← storeEventTxn σ.tables batch.2
  persistEventAuthChainTxn usesIndex batch.1 { σ with tables := T } batch.2

/-- The store before anything is persisted. -/
def IndexStore.empty : IndexStore ε ρ τ := ⟨⟨∅, [], ∅, [], ∅⟩, 0⟩

/-- A run from empty tables. -/
def persistRun [DecidableEq ρ] [DecidableEq τ] (usesIndex : ρ → Bool)
    (batches : List (IterOrder × List (EventRecord ε ρ τ))) : Option (IndexStore ε ρ τ) :=
  batches.foldlM (persistBatch usesIndex) IndexStore.empty

/-! ## The links in the database -/

/-- Some row covers the places `p` and `q`. -/
def LinkCovers (links : List (ChainPos × ChainPos)) (p q : ChainPos) : Prop :=
  ∃ s t, ((p.1, s), (q.1, t)) ∈ links ∧ s ≤ p.2 ∧ q.2 ≤ t

/-- The rows of `event_auth_chain_links` say only what is true, and all of it; a place has one link
into each chain. -/
structure LinkRows (place : ε → Option ChainPos) (Cites : ε → ε → Prop)
    (links : List (ChainPos × ChainPos)) : Prop where
  sound : ∀ {p q}, (p, q) ∈ links →
    p.1 ≠ q.1 ∧ ∃ a b, place a = some p ∧ place b = some q ∧ TransGen Cites a b
  complete : ∀ {a b p q}, place a = some p → place b = some q → p.1 ≠ q.1 → TransGen Cites a b →
    LinkCovers links p q
  functional : ∀ {p d t t'}, (p, (d, t)) ∈ links → (p, (d, t')) ∈ links → t = t'

section
variable {o : IterOrder} {place place' : ε → Option ChainPos} {Cites : ε → ε → Prop}
  {links : List (ChainPos × ChainPos)} {chainMap : Dict ε ChainPos} (h : LinkRows place Cites links)
include h in
omit [LinearOrder ε] in
variable (chainMap) in
/-- The links that are loaded, as a link map. -/
theorem loadLinks_spec : ∃ M, loadLinks o links chainMap = some M ∧ M.additions = [] ∧
      ∀ {c d s t}, M.maps.lookup (c, d, s) = some t ↔
        ((c, s), (d, t)) ∈ links ∧ c ∈ chainMap.entries.map fun entry => entry.2.1 := by
  set rows := o.order (links.filter fun l => l.1.1 ∈ chainMap.entries.map fun entry => entry.2.1)
  have hrows : ∀ {p q}, (p, q) ∈ rows ↔
      (p, q) ∈ links ∧ p.1 ∈ chainMap.entries.map fun entry => entry.2.1 := by
    intro p q
    rw [o.mem_order, mem_filter, decide_eq_true_eq]
  obtain ⟨M, hrun, hadd, hM⟩ := foldlM_inv
    (f := fun M l => (M.addLink l.1 l.2 false).map Prod.snd)
    (I := fun done M => M.additions = [] ∧ ∀ c d s t, M.maps.lookup (c, d, s) = some t ↔
      ((c, s), (d, t)) ∈ done) rows (s := LinkMap.empty) (by
      rintro done ⟨⟨c₀, s₀⟩, ⟨d₀, t₀⟩⟩ rest M heq ⟨hadd, hM⟩
      have hmem : ((c₀, s₀), (d₀, t₀)) ∈ rows := heq ▸ mem_append_cons_self
      have hne := (h.sound (hrows.mp hmem).1).1
      refine ⟨⟨M.maps.insert (c₀, d₀, s₀) t₀, M.additions⟩, ?_, hadd, fun c d s t => ?_⟩
      · simp [LinkMap.addLink, hne]
      · rw [mem_append, mem_singleton, Prod.mk.injEq, Prod.mk.injEq, Prod.mk.injEq]
        by_cases hk : (c, d, s) = (c₀, d₀, s₀)
        · obtain ⟨rfl, rfl, rfl⟩ : c = c₀ ∧ d = d₀ ∧ s = s₀ := by simpa using hk
          rw [AList.lookup_insert, Option.some.injEq]
          constructor
          · rintro rfl
            exact .inr ⟨⟨rfl, rfl⟩, rfl, rfl⟩
          · rintro (hdone | ⟨_, _, rfl⟩)
            · -- a place has one link into each chain
              have hmem' : ((c, s), (d, t)) ∈ rows := heq ▸ mem_append_left _ hdone
              exact h.functional (hrows.mp hmem).1 (hrows.mp hmem').1
            · rfl
        · rw [AList.lookup_insert_ne hk, hM]
          refine (or_iff_left ?_).symm
          rintro ⟨⟨rfl, rfl⟩, rfl, _⟩
          exact hk rfl)
    ⟨rfl, fun c d s t => by simp [LinkMap.empty]⟩
  exact ⟨M, hrun, hadd, fun {c d s t} => (hM c d s t).trans hrows⟩

/-- What a link map says beyond the one that was loaded comes from the new events, and is noted as an
addition. -/
structure LinkMap.Extends (place : ε → Option ChainPos) (done : List ε) (M₀ M : LinkMap) : Prop where
  entry : ∀ {c d s t}, M.maps.lookup (c, d, s) = some t →
    M₀.maps.lookup (c, d, s) = some t ∨ ∃ t', (c, s, d, t') ∈ M.additions
  added : ∀ {c s d t}, (c, s, d, t) ∈ M.additions → ∃ e ∈ done, place e = some (c, s)

omit [LinearOrder ε] in
theorem LinkMap.Extends.grow {done : List ε} {M₀ M M' : LinkMap} {e : ε} {src : ChainPos}
    (h : LinkMap.Extends place done M₀ M) (hgrows : LinkMap.Grows src M M') (he : place e = some src) :
    LinkMap.Extends place (done ++ [e]) M₀ M' := by
  refine ⟨fun hlook => ?_, fun hadd => ?_⟩
  · rcases hgrows.entry hlook with hlook | ⟨_, hadd⟩
    · exact (h.entry hlook).imp_right fun ⟨t', hadd⟩ => ⟨t', hgrows.additions hadd⟩
    · exact .inr hadd
  · rcases hgrows.added hadd with hadd | hsrc
    · obtain ⟨x, hx, hplace⟩ := h.added hadd
      exact ⟨x, mem_append_left _ hx, hplace⟩
    · exact ⟨e, mem_append_right _ (mem_singleton_self e), hsrc ▸ he⟩

theorem mem_getAdditions {M : LinkMap} {c s d t : ℕ} : ((c, s), (d, t)) ∈ M.getAdditions ↔
      (∃ t', (c, s, d, t') ∈ M.additions) ∧ M.maps.lookup (c, d, s) = some t := by
  rw [LinkMap.getAdditions, mem_filterMap]
  constructor
  · rintro ⟨⟨c', s', d', t'⟩, hadd, hrow⟩
    obtain ⟨t'', hlook, heq⟩ := Option.map_eq_some_iff.mp hrow
    obtain ⟨⟨rfl, rfl⟩, rfl, rfl⟩ : (c' = c ∧ s' = s) ∧ d' = d ∧ t'' = t := by simpa using heq
    exact ⟨⟨t', hadd⟩, hlook⟩
  · rintro ⟨⟨t', hadd⟩, hlook⟩
    exact ⟨(c, s, d, t'), hadd, Option.map_eq_some_iff.mpr ⟨t, hlook, rfl⟩⟩

/-- What the second half of `_add_chain_cover_index` is given: places for the events to index, and all
their auth events. -/
structure NewPlaces (place place' : ε → Option ChainPos) (Cites : ε → ε → Prop)
    (chainMap : Dict ε ChainPos) (eventToAuthChain : Dict ε (List ε)) (eventsToCalc : List ε) : Prop where
  old : ∀ {e p}, place e = some p → place' e = some p
  closed : ∀ {e b p}, place e = some p → Cites e b → ∃ q, place b = some q
  fresh : ∀ {e}, e ∈ eventsToCalc → place e = none
  new : ∀ {e p}, place' e = some p → place e = some p ∨ e ∈ eventsToCalc
  mapped : ∀ {e p}, chainMap.lookup e = some p → place' e = some p
  placed : ∀ {e}, e ∈ eventsToCalc → e ∈ chainMap
  auth : ∀ {e}, e ∈ eventsToCalc → (eventToAuthChain.getD e []).Nodup ∧
    ∀ b, b ∈ eventToAuthChain.getD e [] ↔ Cites e b
  cited : ∀ {e b}, e ∈ eventsToCalc → Cites e b → b ∈ chainMap

variable {eventToAuthChain : Dict ε (List ε)} {eventsToCalc : List ε}
  (hnew : NewPlaces place place' Cites chainMap eventToAuthChain eventsToCalc)
include hnew

/-- What an indexed event reaches is indexed. -/
theorem NewPlaces.closed_transGen {a b : ε} {p : ChainPos} (ha : place a = some p)
    (hab : TransGen Cites a b) : ∃ q, place b = some q := by
  induction hab with
  | single hab => exact hnew.closed ha hab
  | tail _ hbc ih =>
    obtain ⟨q, hq⟩ := ih
    exact hnew.closed hq hbc

include h

/-- The loaded links are complete for the events indexed before, in the chains that were loaded. -/
theorem LinkRows.loaded {M : LinkMap} (hM : ∀ {c d s t}, M.maps.lookup (c, d, s) = some t ↔
      ((c, s), (d, t)) ∈ links ∧ c ∈ chainMap.entries.map fun entry => entry.2.1) :
    LinkInv place' Cites (fun a => ∃ p, place a = some p)
      (fun c => c ∈ chainMap.entries.map fun entry => entry.2.1) M := by
  refine ⟨fun hlook => ?_, ?_⟩
  · obtain ⟨hne, a, b, ha, hb, hab⟩ := h.sound (hM.mp hlook).1
    exact ⟨hne, a, b, hnew.old ha, hnew.old hb, hab⟩
  · rintro a b p q ⟨p', ha'⟩ ha hK hb hne hab
    obtain rfl := some.inj ((hnew.old ha').symm.trans ha)
    obtain ⟨q', hb'⟩ := hnew.closed_transGen ha' hab
    obtain rfl := some.inj ((hnew.old hb').symm.trans hb)
    obtain ⟨s, t, hrow, hs, ht⟩ := h.complete ha' hb' hne hab
    exact ⟨s, t, hM.mpr ⟨hrow, hK⟩, hs, ht⟩

theorem LinkRows.addLinks (hplace : Placement place' Cites) :
    ∃ M₀ M, loadLinks o links chainMap = some M₀ ∧
      (sortedTopologically eventsToCalc eventToAuthChain).foldlM
        (linkEvent o chainMap eventToAuthChain) M₀ = some M ∧
      LinkRows place' Cites (links ++ M.getAdditions) := by
  obtain ⟨M₀, hload, hnone, hM₀⟩ := loadLinks_spec chainMap h
  obtain ⟨_, hmem, hbefore⟩ := sortedTopologically_spec hplace.acyclic
    fun e he b hb => ((hnew.auth he).2 b).mp hb
  set K := fun c => c ∈ chainMap.entries.map fun entry => entry.2.1
  have hK : ∀ {e p}, chainMap.lookup e = some p → K p.1 := fun he =>
    mem_map.mpr ⟨⟨_, _⟩, AList.mem_lookup_iff.mp he, rfl⟩
  obtain ⟨M, hrun, hinv, hext⟩ := foldlM_inv
    (I := fun done M => LinkInv place' Cites (fun a => (∃ p, place a = some p) ∨ a ∈ done) K M ∧
      LinkMap.Extends place' done M₀ M) (sortedTopologically eventsToCalc eventToAuthChain) (by
      rintro done e rest M heq ⟨hinv, hext⟩
      have he : e ∈ eventsToCalc := (hmem e).mp (heq ▸ mem_append_cons_self)
      obtain ⟨src, hsrc⟩ := exists_lookup (hnew.placed he)
      obtain ⟨hnodup, hauth⟩ := hnew.auth he
      obtain ⟨M', hrun, hinv', hgrows⟩ := hinv.linkEvent (o := o) hplace hnodup hauth hsrc
        (hnew.mapped hsrc) (by
          intro b heb
          obtain ⟨q, hq⟩ := exists_lookup (hnew.cited he heb)
          have hb := hnew.mapped hq
          refine ⟨q, hq, hb, ?_, hK hq⟩
          rcases hnew.new hb with hold | hcalc
          · exact .inl ⟨q, hold⟩
          · exact .inr (hbefore done e rest heq b ((hauth b).mpr heb) hcalc))
      refine ⟨M', hrun, ?_, hext.grow hgrows (hnew.mapped hsrc)⟩
      refine ⟨hinv'.sound, fun hP => hinv'.complete ?_⟩
      rwa [mem_append, mem_singleton, ← or_assoc] at hP)
    ⟨⟨(h.loaded hnew hM₀).sound, fun hP => (h.loaded hnew hM₀).complete (hP.resolve_right not_mem_nil)⟩,
      ⟨.inl, fun hadd => by rw [hnone] at hadd; exact nomatch hadd⟩⟩
  refine ⟨M₀, M, hload, hrun, ?_, ?_, ?_⟩
  · rintro ⟨c, s⟩ ⟨d, t⟩ hrow
    rcases mem_append.mp hrow with hrow | hrow
    · obtain ⟨hne, a, b, ha, hb, hab⟩ := h.sound hrow
      exact ⟨hne, a, b, hnew.old ha, hnew.old hb, hab⟩
    · exact hinv.sound (mem_getAdditions.mp hrow).2
  · intro a b p q ha hb hne hab
    rcases hnew.new ha with hold | hcalc
    · obtain ⟨q', hb'⟩ := hnew.closed_transGen hold hab
      obtain rfl := some.inj ((hnew.old hb').symm.trans hb)
      obtain ⟨s, t, hrow, hs, ht⟩ := h.complete hold hb' hne hab
      exact ⟨s, t, mem_append_left _ hrow, hs, ht⟩
    · obtain ⟨p', hp'⟩ := exists_lookup (hnew.placed hcalc)
      obtain rfl := some.inj ((hnew.mapped hp').symm.trans ha)
      obtain ⟨s, t, hlook, hs, ht⟩ := hinv.complete (.inr ((hmem a).mpr hcalc)) ha (hK hp') hb hne hab
      refine ⟨s, t, mem_append.mpr ?_, hs, ht⟩
      rcases hext.entry hlook with hold | hadd
      · exact .inl (hM₀.mp hold).1
      · exact .inr (mem_getAdditions.mpr ⟨hadd, hlook⟩)
  · rintro ⟨c, s⟩ d t t' hrow hrow'
    -- the place of a new event is not the place of an old one
    have hdisj : ∀ {t t'}, ((c, s), (d, t)) ∈ links → ((c, s), (d, t')) ∉ M.getAdditions := by
      intro t t' hrow hrow'
      obtain ⟨_, a, b, ha, _, _⟩ := h.sound hrow
      obtain ⟨⟨_, hadd⟩, _⟩ := mem_getAdditions.mp hrow'
      obtain ⟨e, he, hplace'⟩ := hext.added hadd
      have hfresh := hnew.fresh ((hmem e).mp he)
      rw [← hplace.inj (hnew.old ha) hplace', ha] at hfresh
      exact nomatch hfresh
    rcases mem_append.mp hrow with hrow | hrow <;>
      rcases mem_append.mp hrow' with hrow' | hrow'
    · exact h.functional hrow hrow'
    · exact absurd hrow' (hdisj hrow)
    · exact absurd hrow (hdisj hrow')
    · exact some.inj
        ((mem_getAdditions.mp hrow).2.symm.trans (mem_getAdditions.mp hrow').2)

end

/-! ## One batch -/

/-- What holds of the store: `Cites` are the auth references of all events, persisted or not, and
`pending` are events that have been stored but not been seen by the index yet. -/
structure IndexInv (Cites : ε → ε → Prop) (usesIndex : ρ → Bool) (pending : List ε)
    (σ : IndexStore ε ρ τ) : Prop where
  auth : ∀ {a b}, σ.tables.Auth a b ↔ (∃ t, σ.tables.stateTuple a = some t) ∧ Cites a b
  nodup : σ.tables.eventAuth.Nodup
  waits : ∀ {e r t}, σ.tables.eventAuthChainToCalculate.lookup e = some (r, t) →
    σ.tables.stateTuple e = some t ∧ e ∉ σ.tables.eventAuthChains
  listed : ∀ {e row t}, σ.tables.events.lookup e = some row → row.stateTuple = some t →
    usesIndex row.roomId = true → e ∉ σ.tables.eventAuthChains → e ∉ pending →
    σ.tables.eventAuthChainToCalculate.lookup e = some (row.roomId, t)
  indexed : ∀ {e}, e ∈ σ.tables.eventAuthChains → ∃ t, σ.tables.stateTuple e = some t
  closed : ∀ {e b}, e ∈ σ.tables.eventAuthChains → Cites e b → b ∈ σ.tables.eventAuthChains
  places : Placement σ.tables.place Cites
  last : ∀ {e p}, σ.tables.place e = some p → p.1 ≤ σ.lastChainId
  links : LinkRows σ.tables.place Cites σ.tables.eventAuthChainLinks

section
variable {usesIndex : ρ → Bool} {o : IterOrder} {Cites : ε → ε → Prop} {σ : IndexStore ε ρ τ}
  {pending : List ε} {eventToRoomId : Dict ε ρ} {eventToTypes : Dict ε τ}
  {eventToAuthChain : Dict ε (List ε)}

theorem IndexInv.waiting (h : IndexInv Cites usesIndex pending σ) : Waiting σ.tables :=
  ⟨h.places.acyclic.mono fun _ _ hab => (h.auth.mp hab).2, h.nodup, h.waits⟩

theorem lookup_update_new (T : Tables ε ρ τ) (new : Dict ε ChainPos) (e : ε) :
    (T.eventAuthChains.update new.items).lookup e = placeAfter T new e := by
  rw [lookup_update_items, placeAfter]
  cases new.lookup e <;> rfl

theorem stateTuple_eq_some {T : Tables ε ρ τ} {e : ε} {row : EventRow ρ τ} {t : τ}
    (hrow : T.events.lookup e = some row) (ht : row.stateTuple = some t) : T.stateTuple e = some t := by
  rw [Tables.stateTuple, hrow, bind_some, ht]

variable {eventsToCalc : List ε} (h : IndexInv Cites usesIndex pending σ)
  (hpassed : Passed σ.tables eventToRoomId eventToTypes eventToAuthChain)
  (hpending : ∀ {e row t}, e ∈ pending → σ.tables.events.lookup e = some row →
    row.stateTuple = some t → usesIndex row.roomId = true → eventToRoomId.lookup e = some row.roomId)
include h hpassed hpending in
/-- After the discarding, only the events that are left are not listed. -/
theorem IndexInv.discard {toCalculate : Dict ε (ρ × τ)}
    (htable : ∀ e r t, toCalculate.lookup e = some (r, t) ↔
      σ.tables.eventAuthChainToCalculate.lookup e = some (r, t) ∨
        eventToRoomId.lookup e = some r ∧ σ.tables.stateTuple e = some t ∧ e ∉ eventsToCalc) :
    IndexInv Cites usesIndex eventsToCalc
      { σ with tables := { σ.tables with eventAuthChainToCalculate := toCalculate } } := by
  refine ⟨h.auth, h.nodup, fun {e r t} hwait => ?_, fun {e row t} hrow ht huses hun hleft => ?_,
    h.indexed, h.closed, h.places, h.last, h.links⟩
  · rcases (htable e r t).mp hwait with hwait | ⟨hroom, ht, _⟩
    · exact h.waits hwait
    · exact ⟨ht, (hpassed.fresh (mem_of_lookup hroom)).1⟩
  · refine (htable e _ t).mpr ?_
    by_cases hmem : e ∈ pending
    · exact .inr ⟨hpending hmem hrow ht huses, stateTuple_eq_some hrow ht, hleft⟩
    · exact .inl (h.listed hrow ht huses hun hmem)

/-- The store after the new rows have been written. -/
theorem IndexInv.index (h : IndexInv Cites usesIndex eventsToCalc σ) {new : Dict ε ChainPos}
    {lastChainId : ℕ} {links : List (ChainPos × ChainPos)} (hkeys : ∀ e, e ∈ new ↔ e ∈ eventsToCalc)
    (hstate : ∀ e ∈ eventsToCalc, ∃ t, σ.tables.stateTuple e = some t)
    (hcites : ∀ e ∈ eventsToCalc, ∀ b, Cites e b → b ∈ σ.tables.eventAuthChains ∨ b ∈ eventsToCalc)
    (hplace : Placement (placeAfter σ.tables new) Cites)
    (hlast : ∀ e pos, placeAfter σ.tables new e = some pos → pos.1 ≤ lastChainId)
    (hlinks : LinkRows (placeAfter σ.tables new) Cites links) : IndexInv Cites usesIndex []
      { tables := { σ.tables with
          eventAuthChains := σ.tables.eventAuthChains.update new.items
          eventAuthChainToCalculate := σ.tables.eventAuthChainToCalculate.eraseAll new.keys
          eventAuthChainLinks := links }
        lastChainId := lastChainId } := by
  have hmem : ∀ {e}, e ∈ σ.tables.eventAuthChains.update new.items ↔
      e ∈ eventsToCalc ∨ e ∈ σ.tables.eventAuthChains := by
    intro e
    rw [mem_update, map_fst_items, ← AList.mem_keys, hkeys]
  rw [← funext (lookup_update_new σ.tables new)] at hplace hlinks
  refine ⟨h.auth, h.nodup, fun {e r t} hwait => ?_, fun {e row t} hrow ht huses hun _ => ?_,
    fun {e} he => ?_, fun {e b} he hb => ?_, hplace, fun {e p} he => ?_, hlinks⟩
  · obtain ⟨hnot, hwait⟩ := lookup_eraseAll_eq_some.mp hwait
    obtain ⟨ht, hun⟩ := h.waits hwait
    rw [← AList.mem_keys, hkeys] at hnot
    exact ⟨ht, fun hcontra => (hmem.mp hcontra).elim hnot hun⟩
  · have hnot : e ∉ eventsToCalc := fun he => hun (hmem.mpr (.inl he))
    rw [lookup_eraseAll, if_neg fun hkey => hnot ((hkeys e).mp (AList.mem_keys.mpr hkey))]
    exact h.listed hrow ht huses (fun he => hun (hmem.mpr (.inr he))) hnot
  · rcases hmem.mp he with he | he
    · exact hstate e he
    · exact h.indexed he
  · refine hmem.mpr ?_
    rcases hmem.mp he with he | he
    · exact (hcites e he b hb).symm
    · exact .inr (h.closed he hb)
  · exact hlast e p ((lookup_update_new σ.tables new e).symm.trans he)

/-- What the allocation hands to the second half. -/
theorem newPlaces_of_allocated {T : Tables ε ρ τ}
    {chainMap new : Dict ε ChainPos} (hkeys : ∀ e, e ∈ new ↔ e ∈ eventsToCalc)
    (hun : ∀ e ∈ eventsToCalc, e ∉ T.eventAuthChains)
    (hchain : ∀ {e pos}, chainMap.lookup e = some pos → T.place e = some pos)
    (hclosed : ∀ {e b}, e ∈ T.eventAuthChains → Cites e b → b ∈ T.eventAuthChains)
    (hauth : ∀ e ∈ eventsToCalc, (eventToAuthChain.getD e []).Nodup ∧
      ∀ b, b ∈ eventToAuthChain.getD e [] ↔ Cites e b)
    (hcites : ∀ e ∈ eventsToCalc, ∀ b, Cites e b → b ∈ eventsToCalc ∨ b ∈ chainMap) :
    NewPlaces T.place (placeAfter T new) Cites (chainMap.update new.items)
      eventToAuthChain eventsToCalc := by
  have hmem : ∀ {e}, e ∈ chainMap.update new.items ↔ e ∈ eventsToCalc ∨ e ∈ chainMap := by
    intro e
    rw [mem_update, map_fst_items, ← AList.mem_keys, hkeys]
  have hcalc : ∀ {e p}, new.lookup e = some p → e ∈ eventsToCalc := fun he =>
    (hkeys _).mp (mem_of_lookup he)
  refine ⟨fun {e p} he => ?_, fun {e b p} he hb => ?_, fun {e} he => ?_, fun {e p} he => ?_,
    fun {e p} he => ?_, fun he => hmem.mpr (.inl he), fun he => hauth _ he,
    fun he hb => hmem.mpr (hcites _ he _ hb)⟩
  · have hnone : new.lookup e = none := AList.lookup_eq_none.mpr fun hnew =>
      hun e ((hkeys e).mp hnew) (mem_of_lookup he)
    rw [placeAfter, hnone]
    exact he
  · exact exists_lookup (hclosed (mem_of_lookup he) hb)
  · exact AList.lookup_eq_none.mpr (hun e he)
  · unfold placeAfter at he
    split at he
    next hnew => exact .inr (hcalc hnew)
    · exact .inl he
  · rw [lookup_update_items] at he
    unfold placeAfter
    cases hnew : new.lookup e with
    | some p' => rwa [hnew] at he
    | none =>
      rw [hnew] at he
      exact hchain he

include h hpassed hpending in
/-- `_add_chain_cover_index` succeeds and keeps the invariant, with nothing pending any more. -/
theorem addChainCoverIndex_spec [DecidableEq ρ] [DecidableEq τ] :
    ∃ σ', addChainCoverIndex o σ eventToRoomId eventToTypes eventToAuthChain = some σ' ∧
      IndexInv Cites usesIndex [] σ' ∧ σ'.tables.events = σ.tables.events := by
  obtain ⟨v, hcollect, hv⟩ := collect_spec (o := o) h.waiting hpassed
  obtain ⟨⟨eventsToCalc, toCalculate⟩, hdiscard, hsub, hclosed, htable⟩ :=
    discardEvents_spec h.waiting (fun he => (hpassed.fresh he).2) hv
  have h₁ := h.discard hpassed hpending htable
  unfold addChainCoverIndex
  simp only [hcollect, hdiscard, Option.bind_eq_bind, bind_some]
  split
  next hempty => exact ⟨_, rfl, hempty ▸ h₁, rfl⟩
  · have hun : ∀ e ∈ eventsToCalc, e ∉ σ.tables.eventAuthChains := fun e he => hv.unindexed (hsub e he)
    have hstate : ∀ e ∈ eventsToCalc, ∃ t, σ.tables.stateTuple e = some t := by
      intro e he
      obtain ⟨htypes, hmem⟩ := hv.typed (hsub e he)
      rw [← htypes]
      exact exists_lookup hmem
    have hauth : ∀ e ∈ eventsToCalc, (v.eventToAuthChain.getD e []).Nodup ∧
        ∀ b, b ∈ v.eventToAuthChain.getD e [] ↔ Cites e b := by
      intro e he
      obtain ⟨l, hl⟩ := exists_lookup (hv.calc_iff.mp (hsub e he))
      rw [getD_of_lookup hl]
      refine ⟨(hv.auth hl).1, fun b => ((hv.auth hl).2 b).trans (h.auth.trans ?_)⟩
      exact and_iff_right (hstate e he)
    have hcites : ∀ e ∈ eventsToCalc, ∀ b, Cites e b → b ∈ eventsToCalc ∨ b ∈ v.chainMap :=
      fun e he b hb => (hclosed e he b (h.auth.mpr ⟨hstate e he, hb⟩)).symm
    obtain ⟨new, lastChainId, halloc, hkeys, hplace, hlast⟩ := allocateChainIds_spec (o := o)
      v.eventToTypes h.places (fun e pos he => hv.chain he) hun
      (fun e he b hb => ⟨((hauth e he).2 b).mp hb, hcites e he b (((hauth e he).2 b).mp hb)⟩)
      fun e pos he => h.last he
    have hnew := newPlaces_of_allocated hkeys hun (fun he => hv.chain he) h.closed hauth hcites
    obtain ⟨M₀, M, hload, hlink, hlinks⟩ := h.links.addLinks (o := o) hnew hplace
    have hnone : (new.keys.any fun e => e ∈ σ.tables.eventAuthChains) = false := by
      refine any_eq_false.mpr fun e he hcontra => ?_
      exact hun e ((hkeys e).mp (AList.mem_keys.mpr he)) (of_decide_eq_true hcontra)
    simp only [halloc, hnone, hload, hlink, bind_some]
    refine ⟨_, rfl, h₁.index hkeys hstate (fun e he b hb => ?_) hplace hlast hlinks, rfl⟩
    refine (hcites e he b hb).symm.imp_left fun hmap => ?_
    obtain ⟨pos, hpos⟩ := exists_lookup hmap
    exact mem_of_lookup (hv.chain hpos)

end
end Synapse.Storage
