import Synapse.Storage.ChainIndex.Allocate

/-!
# Collecting the events to index

The first half of `_add_chain_cover_index`.  The events to index are those being persisted, those of
their rooms that wait in `event_auth_chain_to_calculate`, and whatever un-indexed events a search down
their auth chains finds.  An event of which some auth event has not arrived cannot be indexed; it is
discarded, and everything above it with it, because the events are examined auth events first.

The search ends because each round looks at auth events of events of the round before, so that what it
looks for gets ever lower in the auth graph.
-/

namespace Synapse.Storage

open Synapse.Util Relation List AList
open AList (mem_keys)

variable {ε ρ τ : Type} [LinearOrder ε]

/-! ## The code -/

/-- The type and state key of a persisted state event. -/
def Tables.stateTuple (T : Tables ε ρ τ) (e : ε) : Option τ := (T.events.lookup e).bind (·.stateTuple)

/-- `SELECT auth_id FROM event_auth WHERE event_id = ?`. -/
def authIds (o : IterOrder) (T : Tables ε ρ τ) (eventId : ε) : List ε :=
  o.order ((T.eventAuth.filter fun row => row.1 = eventId).map Prod.snd)

/-- The variables of `_add_chain_cover_index` up to the allocation of chain IDs. -/
structure Collected (ε τ : Type) where
  eventsToCalc : List ε
  eventToTypes : Dict ε τ
  eventToAuthChain : Dict ε (List ε)
  chainMap : Dict ε ChainPos
  missing : List ε

variable (o : IterOrder) (T : Tables ε ρ τ) (v : Collected ε τ)

/-- The loop body for a row of `event_auth_chain_to_calculate`. -/
def addToCalculate (row : Sigma fun _ : ε => ρ × τ) : Collected ε τ :=
  { v with
    eventsToCalc := v.eventsToCalc.insert row.1
    eventToTypes := v.eventToTypes.insert row.1 row.2.2
    eventToAuthChain := v.eventToAuthChain.insert row.1 (authIds o T row.1) }

/-- `missing_auth_chains` before the search. -/
def missingAuthChains (v : Collected ε τ) : List ε :=
  ((v.eventToAuthChain.entries.flatMap (·.2)).filter (· ∉ v.eventsToCalc)).dedup

/-- The loop body for a state event that the search has found. -/
def fetchAuth (row : ε × τ) : Collected ε τ :=
  let types := v.eventToTypes.insert row.1 row.2
  match T.eventAuthChains.lookup row.1 with
  | none =>
    { v with
      eventsToCalc := v.eventsToCalc.insert row.1
      eventToTypes := types
      eventToAuthChain := v.eventToAuthChain.insert row.1 (authIds o T row.1)
      missing := v.missing ∪ (authIds o T row.1).filter (· ∉ types) }
  | some pos => { v with eventToTypes := types, chainMap := v.chainMap.insert row.1 pos }

def fetchRound : Collected ε τ :=
  let rows := (o.order v.missing).filterMap fun a => (T.stateTuple a).map fun t => (a, t)
  rows.foldl (fetchAuth o T) { v with missing := [] }

/-- `while missing_auth_chains`, for at most `fuel` rounds. -/
def fetchMissing (o : IterOrder) (T : Tables ε ρ τ) : ℕ → Collected ε τ → Option (Collected ε τ)
  | 0, v => if v.missing = [] then some v else none
  | fuel + 1, v => if v.missing = [] then some v else fetchMissing o T fuel (fetchRound o T v)

/-- The events that may be indexed now. -/
def collect (o : IterOrder) (T : Tables ε ρ τ) [DecidableEq ρ] (eventToRoomId : Dict ε ρ)
    (eventToTypes : Dict ε τ) (eventToAuthChain : Dict ε (List ε)) : Option (Collected ε τ) :=
  let rooms := eventToRoomId.entries.map (·.2)
  let rows := o.order (T.eventAuthChainToCalculate.entries.filter fun row => row.2.1 ∈ rooms)
  let v := rows.foldl (addToCalculate o T) ⟨eventToRoomId.keys, eventToTypes, eventToAuthChain, ∅, []⟩
  fetchMissing o T (T.events.keys.length + 1) { v with missing := missingAuthChains v }

/-- The loop body that discards an event with an auth event that is not there; `none` is a `KeyError`
or a row that exists already. -/
def discardEvent (eventToRoomId : Dict ε ρ) (v : Collected ε τ) (st : List ε × Dict ε (ρ × τ))
    (eventId : ε) : Option (List ε × Dict ε (ρ × τ)) := do
  let auth ← v.eventToAuthChain.lookup eventId
  if auth.any fun authId => authId ∉ v.chainMap ∧ authId ∉ st.1 then
    let kept := st.1.filter (· ≠ eventId)
    match eventToRoomId.lookup eventId with
    | none => return (kept, st.2)
    | some roomId =>
      let tuple ← v.eventToTypes.lookup eventId
      if eventId ∈ st.2 then none else return (kept, st.2.insert eventId (roomId, tuple))
  else return st

/-- The events that remain to be indexed, and `event_auth_chain_to_calculate` afterwards. -/
def discardEvents (T : Tables ε ρ τ) (eventToRoomId : Dict ε ρ) (v : Collected ε τ) :
    Option (List ε × Dict ε (ρ × τ)) :=
  (sortedTopologically v.eventToAuthChain.keys v.eventToAuthChain).foldlM
    (discardEvent eventToRoomId v) (v.eventsToCalc, T.eventAuthChainToCalculate)

/-! ## The search -/

/-- What the tables must be like for the search. -/
structure Waiting (T : Tables ε ρ τ) : Prop where
  acyclic : Acyclic T.Auth
  nodup : T.eventAuth.Nodup
  waits : ∀ {e r t}, T.eventAuthChainToCalculate.lookup e = some (r, t) →
    T.stateTuple e = some t ∧ e ∉ T.eventAuthChains

/-- What is known of the collected events at every moment. -/
structure CollectInv (T : Tables ε ρ τ) (batch : List ε) (v : Collected ε τ) : Prop where
  batch : ∀ {e}, e ∈ batch → e ∈ v.eventsToCalc
  calc_iff : ∀ {e}, e ∈ v.eventsToCalc ↔ e ∈ v.eventToAuthChain
  unindexed : ∀ {e}, e ∈ v.eventsToCalc → e ∉ T.eventAuthChains
  auth : ∀ {e l}, v.eventToAuthChain.lookup e = some l → l.Nodup ∧ ∀ b, b ∈ l ↔ T.Auth e b
  typed : ∀ {e}, e ∈ v.eventsToCalc → v.eventToTypes.lookup e = T.stateTuple e ∧ e ∈ v.eventToTypes
  chain : ∀ {e pos}, v.chainMap.lookup e = some pos → T.place e = some pos

section
variable {o : IterOrder} {T : Tables ε ρ τ} {batch : List ε} {v : Collected ε τ} {e b : ε}

theorem mem_authIds : b ∈ authIds o T e ↔ T.Auth e b := by
  rw [authIds, o.mem_order, mem_map]
  constructor
  · rintro ⟨⟨a, b⟩, hmem, rfl⟩
    rw [mem_filter, decide_eq_true_eq] at hmem
    exact hmem.2 ▸ hmem.1
  · exact fun h => ⟨(e, b), mem_filter.mpr ⟨h, decide_eq_true rfl⟩, rfl⟩

theorem nodup_authIds (h : T.eventAuth.Nodup) : (authIds o T e).Nodup := by
  refine (o.perm _).nodup_iff.mpr ((h.filter _).map_on ?_)
  rintro ⟨a, b⟩ ha ⟨a', b'⟩ ha' heq
  rw [mem_filter, decide_eq_true_eq] at ha ha'
  exact Prod.ext (ha.2.trans ha'.2.symm) heq

variable (h : CollectInv T batch v)
include h in
theorem CollectInv.withMissing (missing : List ε) : CollectInv T batch { v with missing := missing } :=
  ⟨h.batch, h.calc_iff, h.unindexed, h.auth, h.typed, h.chain⟩

include h in
/-- An un-indexed state event whose auth events are read from `event_auth`. -/
theorem CollectInv.add (hnodup : T.eventAuth.Nodup) {t : τ}
    (ht : T.stateTuple e = some t) (hun : e ∉ T.eventAuthChains) (missing : List ε) : CollectInv T batch
      { v with
        eventsToCalc := v.eventsToCalc.insert e
        eventToTypes := v.eventToTypes.insert e t
        eventToAuthChain := v.eventToAuthChain.insert e (authIds o T e)
        missing := missing } := by
  refine ⟨fun hx => mem_insert_of_mem (h.batch hx), ?_, ?_, ?_, ?_, h.chain⟩
  · intro x
    rw [mem_insert_iff, mem_insert, h.calc_iff]
  · intro x hx
    rcases mem_insert_iff.mp hx with rfl | hx
    · exact hun
    · exact h.unindexed hx
  · intro x l hx
    rcases Dict.lookup_insert_cases hx with ⟨rfl, rfl⟩ | ⟨_, hx⟩
    · exact ⟨nodup_authIds hnodup, fun b => mem_authIds⟩
    · exact h.auth hx
  · intro x hx
    by_cases hxe : x = e
    · subst hxe
      exact ⟨by rw [lookup_insert, ht], (mem_insert _).mpr (.inl rfl)⟩
    · have hx := h.typed ((mem_insert_iff.mp hx).resolve_left hxe)
      exact ⟨by rw [lookup_insert_ne hxe, hx.1], (mem_insert _).mpr (.inr hx.2)⟩

variable {row : ε × τ}
include h in
theorem CollectInv.fetchAuth (hnodup : T.eventAuth.Nodup)
    (ht : T.stateTuple row.1 = some row.2) : CollectInv T batch (fetchAuth o T v row) := by
  unfold Storage.fetchAuth
  split
  next hun => exact h.add hnodup ht (lookup_eq_none.mp hun) _
  next pos hpos =>
    refine ⟨h.batch, h.calc_iff, h.unindexed, h.auth, ?_, ?_⟩
    · intro x hx
      have hxe : x ≠ row.1 := by
        rintro rfl
        exact h.unindexed hx (Dict.mem_of_lookup hpos)
      have hx := h.typed hx
      exact ⟨by rw [lookup_insert_ne hxe, hx.1], (mem_insert _).mpr (.inr hx.2)⟩
    · intro x pos' hx
      rcases Dict.lookup_insert_cases hx with ⟨rfl, rfl⟩ | ⟨_, hx⟩
      · exact hpos
      · exact h.chain hx

/-- What a round looks for next is cited by what it looked for. -/
theorem mem_missing_fetchAuth (hb : b ∈ (fetchAuth o T v row).missing) :
    b ∈ v.missing ∨ T.Auth row.1 b := by
  unfold fetchAuth at hb
  split at hb
  · rcases mem_union_iff.mp hb with hb | hb
    · exact .inl hb
    · exact .inr (mem_authIds.mp (mem_of_mem_filter hb))
  · exact .inl hb

theorem mem_events_of_stateTuple {t : τ} (h : T.stateTuple e = some t) : e ∈ T.events := by
  obtain ⟨_, hrow, _⟩ := Option.bind_eq_some_iff.mp h
  exact Dict.mem_of_lookup hrow

include h

theorem CollectInv.fetchRound (hnodup : T.eventAuth.Nodup) : CollectInv T batch (fetchRound o T v) ∧
      ∀ b ∈ (fetchRound o T v).missing, ∃ a ∈ v.missing, a ∈ T.events ∧ T.Auth a b := by
  refine foldlRecOn (motive := fun v' => CollectInv T batch v' ∧
    ∀ b ∈ v'.missing, ∃ a ∈ v.missing, a ∈ T.events ∧ T.Auth a b) _ _ ?_ ?_
  · exact ⟨h.withMissing [], nofun⟩
  · rintro v' ⟨h', hmissing⟩ ⟨a, t⟩ hmem
    obtain ⟨a', ha, hrow⟩ := mem_filterMap.mp hmem
    obtain ⟨t', ht, hat⟩ := Option.map_eq_some_iff.mp hrow
    obtain ⟨rfl, rfl⟩ := Prod.mk.inj hat
    refine ⟨h'.fetchAuth hnodup ht, fun b hb => ?_⟩
    rcases mem_missing_fetchAuth hb with hb | hb
    · exact hmissing b hb
    · exact ⟨a', o.mem_order.mp ha, mem_events_of_stateTuple ht, hb⟩

/-- The search ends: each round looks lower in the auth graph than the one before. -/
theorem CollectInv.fetchMissing (hT : Waiting T) {fuel : ℕ} (hfuel : v.missing = [] ∨ 0 < fuel ∧
      ∀ m ∈ v.missing, m ∈ T.events → height T.Auth T.events.keys.toFinset m + 1 < fuel) :
    ∃ v', fetchMissing o T fuel v = some v' ∧ CollectInv T batch v' := by
  induction fuel generalizing v with
  | zero => exact ⟨v, if_pos (hfuel.resolve_right fun h => absurd h.1 (lt_irrefl 0)), h⟩
  | succ fuel ih =>
    unfold Storage.fetchMissing
    split
    · exact ⟨v, rfl, h⟩
    next hne =>
      obtain ⟨h', hmissing⟩ := h.fetchRound hT.nodup
      have hlow := (hfuel.resolve_left hne).2
      refine ih h' ?_
      by_cases hempty : (Storage.fetchRound o T v).missing = []
      · exact .inl hempty
      · obtain ⟨b, hb⟩ := exists_mem_of_ne_nil _ hempty
        obtain ⟨a, ha, haT, _⟩ := hmissing b hb
        refine .inr ⟨by have := hlow a ha haT; omega, fun m hm hmT => ?_⟩
        obtain ⟨a, ha, haT, ham⟩ := hmissing m hm
        have hlt := height_lt_of_edge hT.acyclic (mem_toFinset.mpr (mem_keys.mp hmT)) ham
        have := hlow a ha haT
        omega

end

/-! ## The events that are left -/

section
variable {o : IterOrder} {T : Tables ε ρ τ} {eventToRoomId : Dict ε ρ}
  {eventToTypes : Dict ε τ} {eventToAuthChain : Dict ε (List ε)} {v : Collected ε τ}

/-- What `_persist_event_auth_chain_txn` passes about the events being persisted. -/
structure Passed (T : Tables ε ρ τ) (eventToRoomId : Dict ε ρ) (eventToTypes : Dict ε τ)
    (eventToAuthChain : Dict ε (List ε)) : Prop where
  keys : ∀ {e}, e ∈ eventToRoomId ↔ e ∈ eventToAuthChain
  types : ∀ {e}, e ∈ eventToRoomId → eventToTypes.lookup e = T.stateTuple e ∧ e ∈ eventToTypes
  auth : ∀ {e l}, eventToAuthChain.lookup e = some l → l.Nodup ∧ ∀ b, b ∈ l ↔ T.Auth e b
  fresh : ∀ {e}, e ∈ eventToRoomId → e ∉ T.eventAuthChains ∧ e ∉ T.eventAuthChainToCalculate

theorem collect_spec [DecidableEq ρ] (hT : Waiting T)
    (hpassed : Passed T eventToRoomId eventToTypes eventToAuthChain) :
    ∃ v, collect o T eventToRoomId eventToTypes eventToAuthChain = some v ∧
      CollectInv T eventToRoomId.keys v := by
  have hstart : CollectInv T eventToRoomId.keys
      ⟨eventToRoomId.keys, eventToTypes, eventToAuthChain, ∅, []⟩ := by
    refine ⟨id, ?_, fun he => (hpassed.fresh he).1, hpassed.auth, fun he => hpassed.types he, ?_⟩
    · intro e
      exact mem_keys.symm.trans hpassed.keys
    · intro e pos he
      exact nomatch he
  have hrows : CollectInv T eventToRoomId.keys ((o.order (T.eventAuthChainToCalculate.entries.filter
      fun row => row.2.1 ∈ eventToRoomId.entries.map (·.2))).foldl (addToCalculate o T)
      ⟨eventToRoomId.keys, eventToTypes, eventToAuthChain, ∅, []⟩) := by
    refine foldlRecOn _ _ hstart ?_
    rintro v h ⟨e, r, t⟩ hmem
    have hrow := mem_of_mem_filter (o.mem_order.mp hmem)
    obtain ⟨ht, hun⟩ := hT.waits (mem_lookup_iff.mpr hrow)
    exact h.add hT.nodup ht hun v.missing
  refine (hrows.withMissing _).fetchMissing hT (.inr ?_)
  refine ⟨Nat.succ_pos _, fun m _ hm => Nat.succ_lt_succ ?_⟩
  have hlt := height_lt_card hT.acyclic (mem_toFinset.mpr (mem_keys.mp hm))
  exact hlt.trans_le (toFinset_card_le _)

/-- What is known while events are discarded, after those of `done` have been examined. -/
structure DiscardInv (T : Tables ε ρ τ) (eventToRoomId : Dict ε ρ) (v : Collected ε τ)
    (done : List ε) (st : List ε × Dict ε (ρ × τ)) : Prop where
  sub : ∀ {e}, e ∈ st.1 → e ∈ v.eventsToCalc
  gone : ∀ {e}, e ∈ v.eventsToCalc → e ∉ st.1 → e ∈ done
  closed : ∀ {e b}, e ∈ done → e ∈ st.1 → T.Auth e b → b ∈ v.chainMap ∨ b ∈ st.1
  table : ∀ {e r t}, st.2.lookup e = some (r, t) ↔ T.eventAuthChainToCalculate.lookup e = some (r, t) ∨
      eventToRoomId.lookup e = some r ∧ T.stateTuple e = some t ∧ e ∉ st.1

variable {done : List ε} {st : List ε × Dict ε (ρ × τ)} {x : ε}
  (hinv : DiscardInv T eventToRoomId v done st) (hbefore : ∀ e ∈ done, ¬ T.Auth e x)
include hinv hbefore in
/-- Discarding an event that no examined event cites, with its row in the table. -/
theorem DiscardInv.discard {table : Dict ε (ρ × τ)} (hother : ∀ e, e ≠ x → table.lookup e = st.2.lookup e)
    (hrow : ∀ r t, table.lookup x = some (r, t) ↔ T.eventAuthChainToCalculate.lookup x = some (r, t) ∨
        eventToRoomId.lookup x = some r ∧ T.stateTuple x = some t) :
    DiscardInv T eventToRoomId v (done ++ [x]) (st.1.filter (· ≠ x), table) := by
  have hkept : ∀ {e}, e ∈ st.1.filter (· ≠ x) ↔ e ∈ st.1 ∧ e ≠ x := by
    intro e
    rw [mem_filter, decide_eq_true_eq]
  refine ⟨fun he => hinv.sub (hkept.mp he).1, ?_, ?_, ?_⟩
  · intro e he hnot
    by_cases hmem : e ∈ st.1
    · by_cases hex : e = x
      · exact mem_append_right _ (mem_singleton.mpr hex)
      · exact absurd (hkept.mpr ⟨hmem, hex⟩) hnot
    · exact mem_append_left _ (hinv.gone he hmem)
  · intro e b he hmem hAuth
    obtain ⟨hmem, hex⟩ := hkept.mp hmem
    have hdone : e ∈ done := (mem_append.mp he).resolve_right fun h => hex (mem_singleton.mp h)
    refine (hinv.closed hdone hmem hAuth).imp_right fun hb => hkept.mpr ⟨hb, ?_⟩
    rintro rfl
    exact hbefore e hdone hAuth
  · intro e r t
    by_cases hex : e = x
    · subst hex
      rw [hrow, hkept]
      simp
    · rw [hother e hex, hinv.table, hkept, and_iff_left hex]

include hinv hbefore in
/-- The step lemma of the discarding loop, for an event that no examined event cites. -/
theorem DiscardInv.discardEvent (h : CollectInv T eventToRoomId.keys v)
    (hfresh : ∀ {e}, e ∈ eventToRoomId → e ∉ T.eventAuthChainToCalculate)
    (hx : x ∈ v.eventToAuthChain) (hdone : x ∉ done) :
    ∃ st', discardEvent eventToRoomId v st x = some st' ∧
      DiscardInv T eventToRoomId v (done ++ [x]) st' := by
  have hcalc : x ∈ v.eventsToCalc := h.calc_iff.mpr hx
  have hleft : x ∈ st.1 := by
    by_contra hnot
    exact hdone (hinv.gone hcalc hnot)
  obtain ⟨auth, hauth⟩ := Dict.exists_lookup hx
  have hmemAuth := (h.auth hauth).2
  unfold Storage.discardEvent
  rw [hauth, Option.bind_eq_bind, Option.bind_some]
  split
  · have hrow : ∀ r t, st.2.lookup x = some (r, t) ↔
        T.eventAuthChainToCalculate.lookup x = some (r, t) := by
      intro r t
      rw [hinv.table]
      exact or_iff_left fun hnot => hnot.2.2 hleft
    split
    next hroom =>
      refine ⟨_, rfl, hinv.discard hbefore (fun _ _ => rfl) fun r t => ?_⟩
      rw [hrow, hroom]
      simp
    next roomId hroom =>
      have hbatch : x ∈ eventToRoomId := Dict.mem_of_lookup hroom
      obtain ⟨htypes, htyped⟩ := h.typed hcalc
      obtain ⟨tuple, htuple⟩ := Dict.exists_lookup htyped
      -- an event of the batch has no row yet, so the insert does not fail
      have hnone : T.eventAuthChainToCalculate.lookup x = none := lookup_eq_none.mpr (hfresh hbatch)
      have hnew : x ∉ st.2 := by
        intro hmem
        obtain ⟨⟨r, t⟩, hlook⟩ := Dict.exists_lookup hmem
        rw [hrow, hnone] at hlook
        exact nomatch hlook
      rw [htuple, Option.bind_eq_bind, Option.bind_some, if_neg hnew]
      refine ⟨_, rfl, hinv.discard hbefore (fun e he => lookup_insert_ne he) fun r t => ?_⟩
      rw [lookup_insert, hnone, hroom, ← htypes, htuple]
      simp
  next hany =>
    refine ⟨st, rfl, hinv.sub, fun he hnot => mem_append_left _ (hinv.gone he hnot), ?_, hinv.table⟩
    intro e b he hmem hAuth
    rcases mem_append.mp he with he | he
    · exact hinv.closed he hmem hAuth
    · rw [mem_singleton.mp he] at hAuth
      by_contra hnot
      refine hany (any_eq_true.mpr ⟨b, (hmemAuth b).mpr hAuth, decide_eq_true ?_⟩)
      exact not_or.mp hnot

/-- The events that are left have all their auth events, in the index or among themselves; the
events of the batch that are not left are in `event_auth_chain_to_calculate`. -/
theorem discardEvents_spec (hT : Waiting T)
    (hfresh : ∀ {e}, e ∈ eventToRoomId → e ∉ T.eventAuthChainToCalculate)
    (h : CollectInv T eventToRoomId.keys v) : ∃ st, discardEvents T eventToRoomId v = some st ∧
      (∀ e ∈ st.1, e ∈ v.eventsToCalc) ∧ (∀ e ∈ st.1, ∀ b, T.Auth e b → b ∈ v.chainMap ∨ b ∈ st.1) ∧
      ∀ e r t, st.2.lookup e = some (r, t) ↔ T.eventAuthChainToCalculate.lookup e = some (r, t) ∨
        eventToRoomId.lookup e = some r ∧ T.stateTuple e = some t ∧ e ∉ st.1 := by
  have hgraph : ∀ e ∈ v.eventToAuthChain.keys, ∀ b ∈ v.eventToAuthChain.getD e [], T.Auth e b := by
    intro e he b hb
    obtain ⟨l, hl⟩ := Dict.exists_lookup (mem_keys.mpr he)
    rw [Dict.getD_of_lookup hl] at hb
    exact ((h.auth hl).2 b).mp hb
  obtain ⟨hnodup, hmem, hbefore⟩ := sortedTopologically_spec hT.acyclic hgraph
  have hstart : DiscardInv T eventToRoomId v [] (v.eventsToCalc, T.eventAuthChainToCalculate) := by
    refine ⟨id, fun he hnot => absurd he hnot, fun he => absurd he not_mem_nil, ?_⟩
    intro e r t
    refine (or_iff_left ?_).symm
    rintro ⟨hroom, _, hnot⟩
    exact hnot (h.batch (mem_keys.mp (Dict.mem_of_lookup hroom)))
  obtain ⟨st, hrun, hinv⟩ := foldlM_inv (sortedTopologically v.eventToAuthChain.keys v.eventToAuthChain)
    (by
      intro done x rest st heq hinv
      have hx : x ∈ v.eventToAuthChain := mem_keys.mpr
        ((hmem x).mp (heq ▸ mem_append_cons_self))
      have hdone : x ∉ done := by
        rw [heq, nodup_append] at hnodup
        exact fun hmem => hnodup.2.2 x hmem x mem_cons_self rfl
      refine hinv.discardEvent (fun e he hAuth => hdone ?_) h hfresh hx hdone
      -- an examined event comes after the auth events that are examined
      obtain ⟨l₁, l₂, rfl⟩ := append_of_mem he
      rw [append_assoc, cons_append] at heq
      have hek : e ∈ v.eventToAuthChain :=
        mem_keys.mpr ((hmem e).mp (heq ▸ mem_append_right l₁ mem_cons_self))
      obtain ⟨l, hl⟩ := Dict.exists_lookup hek
      refine mem_append_left _ (hbefore l₁ e _ heq x ?_ (mem_keys.mp hx))
      rw [Dict.getD_of_lookup hl]
      exact ((h.auth hl).2 x).mpr hAuth)
    hstart
  refine ⟨st, hrun, fun e => hinv.sub, fun e he b hAuth => ?_, fun e r t => hinv.table⟩
  refine hinv.closed ((hmem e).mpr ?_) he hAuth
  exact mem_keys.mp (h.calc_iff.mp (hinv.sub he))

end
end Synapse.Storage
