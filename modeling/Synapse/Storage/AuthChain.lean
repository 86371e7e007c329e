import Synapse.StateGroups.Walks
import Synapse.Storage.AuthWalkStop
import Synapse.Storage.CoverIndexFixup
import Synapse.Util.Search

/-!
# Auth chains

`get_auth_chain_ids` computes the auth chain of some events in one of two ways.
`_get_auth_chain_ids_using_cover_index_txn` merges, chain by chain, how far the given events reach: along
the links of their chains, and in their own chains up to the event before the last given one.
`_get_auth_chain_ids_txn` walks the auth graph level by level.

With an exact chain cover the first one finds the same events as the second, if all the given events are
in the index (`mem_getAuthChainIdsUsingCoverIndexTxn`).  If one of them is not it raises, and
`get_auth_chain_ids` falls back to the second one.
-/

namespace Synapse.Storage

open Synapse.Util Synapse.StateGroups Relation List Dict

variable {ε ρ τ : Type}

/-! ## The code -/

/-- `event_chains`: the greatest sequence number of the given events in each of their chains.  Fetching in
batches makes no difference to the rows. -/
def eventChains [DecidableEq ε] (T : Tables ε ρ τ) (initialEvents : List ε) : Dict ℕ ℕ :=
  maxMerge ∅ ((T.eventAuthChains.items.filter fun row => row.1 ∈ initialEvents).map Prod.snd)

variable (T : Tables ε ρ τ)

/-- The links of chains in `event_chains` that start at a given event or before one. -/
def reachableLinks (eventChains : Dict ℕ ℕ) : List (ChainPos × ChainPos) :=
  (T.eventAuthChainLinks.filter fun row => row.1.1 ∈ eventChains).filter fun row =>
    row.1.2 ≤ eventChains.getD row.1.1 0

/-- `chains`: how far the given events reach in each chain. -/
def reachableChains (eventChains : Dict ℕ ℕ) : Dict ℕ ℕ :=
  let chains := maxMerge ∅ ((reachableLinks T eventChains).map Prod.snd)
  -- if the given event is the first one of its chain there is nothing before it
  chains.maxMerge ((eventChains.items.filter fun item => item.2 ≠ 1).map fun item =>
    (item.1, item.2 - 1))

/-- The events of the chains, up to the sequence numbers given for them. -/
def fetchChains (engine : DatabaseEngine) (T : Tables ε ρ τ) (chains : Dict ℕ ℕ) : List ε :=
  match engine with
  | .postgres => (T.eventAuthChains.items.flatMap fun row =>
      (chains.items.filter fun l => row.2.1 = l.1 ∧ row.2.2 ≤ l.2).map fun _ => row.1)
  | .sqlite => chains.items.flatMap fun l =>
      (T.eventAuthChains.items.filter fun row => row.2.1 = l.1 ∧ row.2.2 ≤ l.2).map Prod.fst

def getAuthChainIdsUsingCoverIndexTxn [DecidableEq ε] (engine : DatabaseEngine) (T : Tables ε ρ τ)
    (eventIds : List ε) (includeGiven : Bool) : Except CoverIndexError (List ε) :=
  let initialEvents := eventIds.dedup
  let seenEvents := (T.eventAuthChains.items.filter fun row => row.1 ∈ initialEvents).map Prod.fst
  let eventsMissingChainInfo := initialEvents.filter (· ∉ seenEvents)
  if eventsMissingChainInfo ≠ [] then .error .noChainCoverIndex
  else
    let chains := reachableChains T (eventChains T initialEvents)
    let results := if includeGiven then initialEvents else []
    .ok (results ∪ fetchChains engine T chains)

/-- The auth events of a front, in chunks of 100, and the cache afterwards. -/
def nextFront [LinearOrder ε] (T : Tables ε ρ τ) (evict : Eviction ε)
    (cache : EventAuthCache ε) (front : List ε) : List ε × EventAuthCache ε :=
  (batchIter 100 front).foldl (fun acc chunk =>
    let (found, cache) := findAuthEvents T evict acc.2 chunk
    (acc.1 ∪ found.map fun row => row.2.1, cache)) ([], cache)

/-- The `while front` loop; `order` is the order in which sets are walked. -/
def authChainLoop [LinearOrder ε] (T : Tables ε ρ τ) (evict : Eviction ε)
    (order : IterOrder) : ℕ → List ε → List ε → EventAuthCache ε → Option (List ε × EventAuthCache ε)
  | 0, front, results, cache => if front = [] then some (results, cache) else none
  | fuel + 1, front, results, cache =>
    if front = [] then some (results, cache)
    else
      let (newFront, cache) := nextFront T evict cache (order.order front)
      let front := newFront.filter (· ∉ results)
      authChainLoop T evict order fuel front (results ∪ front) cache

/-- `_get_auth_chain_ids_txn`, with the auth event cache passed in and out. -/
def getAuthChainIdsTxn [LinearOrder ε] (T : Tables ε ρ τ)
    (evict : Eviction ε) (order : IterOrder) (fuel : ℕ)
    (cache : EventAuthCache ε) (eventIds : List ε) (includeGiven : Bool) :
    Option (List ε × EventAuthCache ε) :=
  let results := if includeGiven then eventIds.dedup else []
  authChainLoop T evict order fuel eventIds.dedup results cache

/-- `hasChainCover` is the flag of the room. -/
def getAuthChainIds [LinearOrder ε] (engine : DatabaseEngine) (T : Tables ε ρ τ)
    (evict : Eviction ε) (order : IterOrder) (fuel : ℕ)
    (cache : EventAuthCache ε) (hasChainCover : Bool) (eventIds : List ε) (includeGiven : Bool) :
    Option (List ε × EventAuthCache ε) :=
  match hasChainCover, getAuthChainIdsUsingCoverIndexTxn engine T eventIds includeGiven with
  | true, .ok result => some (result, cache)
  | _, _ => getAuthChainIdsTxn T evict order fuel cache eventIds includeGiven

/-- The events that are reachable by one or more auth edges from the given ones, and with `include_given`
the given ones. -/
def InAuthChain (eventIds : List ε) (includeGiven : Bool) (x : ε) : Prop :=
  (∃ e ∈ eventIds, TransGen T.Auth e x) ∨ includeGiven = true ∧ x ∈ eventIds

/-! ## By the index -/

section
variable [DecidableEq ε] {T : Tables ε ρ τ} {eventIds : List ε} {c s : ℕ}

theorem le_getD_eventChains (hpos : 0 < s) : s ≤ (eventChains T eventIds).getD c 0 ↔
    ∃ e ∈ eventIds, ∃ t, T.place e = some (c, t) ∧ s ≤ t := by
  unfold eventChains
  rw [le_getD_maxMerge hpos]
  have hempty : ¬ s ≤ (∅ : Dict ℕ ℕ).getD c 0 := Nat.not_le.mpr hpos
  constructor
  · intro h
    obtain ⟨p, hp, rfl, hle⟩ := h.resolve_left hempty
    obtain ⟨⟨e, p⟩, hrow, rfl⟩ := mem_map.mp hp
    obtain ⟨hrow, hmem⟩ := mem_filter.mp hrow
    exact ⟨e, of_decide_eq_true hmem, p.2, mem_items.mp hrow, hle⟩
  · intro h
    obtain ⟨e, he, t, hlookup, hle⟩ := h
    exact .inr ⟨(c, t), mem_map.mpr ⟨(e, c, t), mem_filter.mpr ⟨mem_items.mpr hlookup,
      decide_eq_true he⟩, rfl⟩, rfl, hle⟩

/-- How far the given events reach: along a link of one of them, or to before one of them. -/
theorem le_getD_reachableChains (hT : ChainCover T) (hpos : 0 < s) :
    s ≤ (reachableChains T (eventChains T eventIds)).getD c 0 ↔
      ∃ e ∈ eventIds, ∃ d t, T.place e = some (d, t) ∧ ((d = c ∧ s < t) ∨
          ∃ s₁ s₂, ((d, s₁), (c, s₂)) ∈ T.eventAuthChainLinks ∧ s₁ ≤ t ∧ s ≤ s₂) := by
  have hempty : ¬ s ≤ (∅ : Dict ℕ ℕ).getD c 0 := Nat.not_le.mpr hpos
  unfold reachableChains
  rw [le_getD_maxMerge hpos, le_getD_maxMerge hpos]
  constructor
  · intro h
    rcases h with h | h
    · obtain ⟨p, hp, rfl, hle⟩ := h.resolve_left hempty
      obtain ⟨⟨⟨d, s₁⟩, p⟩, hrow, rfl⟩ := mem_map.mp hp
      obtain ⟨hrow, hreach⟩ := mem_filter.mp hrow
      have hlink := (mem_filter.mp hrow).1
      obtain ⟨o, ho⟩ := hT.origin hlink
      obtain ⟨e, he, t, hlookup, hle'⟩ := (le_getD_eventChains (hT.pos ho)).mp (of_decide_eq_true hreach)
      exact ⟨e, he, d, t, hlookup, .inr ⟨s₁, p.2, hlink, hle', hle⟩⟩
    · obtain ⟨p, hp, rfl, hle⟩ := h
      obtain ⟨⟨c, m⟩, hitem, rfl⟩ := mem_map.mp hp
      have hgetD : (eventChains T eventIds).getD c 0 = m :=
        getD_of_lookup (mem_items.mp (mem_filter.mp hitem).1)
      have hm : 0 < m := by
        omega
      obtain ⟨e, he, t, hlookup, hle'⟩ := (le_getD_eventChains hm).mp (le_of_eq hgetD.symm)
      refine ⟨e, he, c, t, hlookup, .inl ⟨rfl, ?_⟩⟩
      omega
  · intro h
    obtain ⟨e, he, d, t, hlookup, h⟩ := h
    have ht := hT.pos hlookup
    have hle := (le_getD_eventChains ht).mpr ⟨e, he, t, hlookup, le_refl t⟩
    rcases h with ⟨rfl, hlt⟩ | ⟨s₁, s₂, hlink, hle₁, hle₂⟩
    · right
      refine ⟨(d, _), mem_map.mpr ⟨(d, _), mem_filter.mpr
        ⟨mem_items.mpr (lookup_of_lt_getD (ht.trans_le hle)), decide_eq_true ?_⟩, rfl⟩, rfl, ?_⟩
      · omega
      · omega
    · left
      right
      refine ⟨(c, s₂), mem_map.mpr ⟨((d, s₁), (c, s₂)), mem_filter.mpr
        ⟨mem_filter.mpr ⟨hlink, decide_eq_true ?_⟩, decide_eq_true (hle₁.trans hle)⟩, rfl⟩, rfl, hle₂⟩
      exact mem_of_lookup (lookup_of_lt_getD (ht.trans_le hle))

variable (engine : DatabaseEngine) {x : ε}

theorem mem_fetchChains (hT : ChainCover T) {chains : Dict ℕ ℕ} :
    x ∈ fetchChains engine T chains ↔
      ∃ c s, T.place x = some (c, s) ∧ s ≤ chains.getD c 0 := by
  have hrow : (∃ p m, T.place x = some p ∧ chains.lookup p.1 = some m ∧ p.2 ≤ m) ↔
      ∃ c s, T.place x = some (c, s) ∧ s ≤ chains.getD c 0 := by
    constructor
    · intro h
      obtain ⟨p, m, hlookup, hm, hle⟩ := h
      exact ⟨p.1, p.2, hlookup, by rwa [getD_of_lookup hm]⟩
    · intro h
      obtain ⟨c, s, hlookup, hle⟩ := h
      exact ⟨(c, s), _, hlookup, lookup_of_lt_getD ((hT.pos hlookup).trans_le hle), hle⟩
  rw [← hrow]
  unfold fetchChains
  cases engine with
  | postgres =>
    rw [mem_flatMap]
    constructor
    · intro h
      obtain ⟨⟨e, p⟩, hp, hmem⟩ := h
      obtain ⟨⟨c, m⟩, hm, rfl⟩ := mem_map.mp hmem
      obtain ⟨hm, hcond⟩ := mem_filter.mp hm
      obtain ⟨rfl, hle⟩ := of_decide_eq_true hcond
      exact ⟨p, m, mem_items.mp hp, mem_items.mp hm, hle⟩
    · intro h
      obtain ⟨p, m, hp, hm, hle⟩ := h
      exact ⟨(x, p), mem_items.mpr hp, mem_map.mpr ⟨(p.1, m), mem_filter.mpr
        ⟨mem_items.mpr hm, decide_eq_true ⟨rfl, hle⟩⟩, rfl⟩⟩
  | sqlite =>
    rw [mem_flatMap]
    constructor
    · intro h
      obtain ⟨⟨c, m⟩, hm, hmem⟩ := h
      obtain ⟨⟨e, p⟩, hrow', rfl⟩ := mem_map.mp hmem
      obtain ⟨hp, hcond⟩ := mem_filter.mp hrow'
      obtain ⟨rfl, hle⟩ := of_decide_eq_true hcond
      exact ⟨p, m, mem_items.mp hp, mem_items.mp hm, hle⟩
    · intro h
      obtain ⟨p, m, hp, hm, hle⟩ := h
      exact ⟨(p.1, m), mem_items.mpr hm, mem_map.mpr ⟨(x, p), mem_filter.mpr
        ⟨mem_items.mpr hp, decide_eq_true ⟨rfl, hle⟩⟩, rfl⟩⟩

/-- What the index finds are the auth events of the given events, and theirs, that are in the index. -/
theorem mem_fetchChains_reachableChains (hT : ChainCover T) :
    x ∈ fetchChains engine T (reachableChains T (eventChains T eventIds)) ↔
      x ∈ T.eventAuthChains ∧ ∃ e ∈ eventIds, e ∈ T.eventAuthChains ∧ TransGen T.Auth e x := by
  rw [mem_fetchChains engine hT]
  constructor
  · intro h
    obtain ⟨c, s, hlookup, hle⟩ := h
    obtain ⟨e, he, d, t, hlookup', hor⟩ := (le_getD_reachableChains hT (hT.pos hlookup)).mp hle
    exact ⟨mem_of_lookup hlookup, e, he, mem_of_lookup hlookup',
      (hT.exact hlookup' hlookup).mpr hor⟩
  · intro h
    obtain ⟨hx, e, he, hindexed, hpath⟩ := h
    obtain ⟨⟨c, s⟩, hlookup⟩ := exists_lookup hx
    obtain ⟨⟨d, t⟩, hlookup'⟩ := exists_lookup hindexed
    exact ⟨c, s, hlookup, (le_getD_reachableChains hT (hT.pos hlookup)).mpr
      ⟨e, he, d, t, hlookup', (hT.exact hlookup' hlookup).mp hpath⟩⟩

theorem eventsMissingChainInfo_eq_nil_iff :
    (eventIds.dedup.filter (· ∉ (T.eventAuthChains.items.filter fun row =>
      row.1 ∈ eventIds.dedup).map Prod.fst)) = [] ↔ ∀ e ∈ eventIds, e ∈ T.eventAuthChains := by
  rw [filter_eq_nil_iff]
  constructor
  · intro h e he
    have hseen := h e (mem_dedup.mpr he)
    simp only [decide_eq_true_eq, not_not] at hseen
    obtain ⟨⟨e, p⟩, hrow, rfl⟩ := mem_map.mp hseen
    exact mem_of_lookup (mem_items.mp (mem_filter.mp hrow).1)
  · intro h e he
    obtain ⟨p, hlookup⟩ := exists_lookup (h e (mem_dedup.mp he))
    simp only [decide_eq_true_eq, not_not]
    exact mem_map.mpr ⟨(e, p), mem_filter.mpr ⟨mem_items.mpr hlookup, decide_eq_true he⟩, rfl⟩

theorem mem_getAuthChainIdsUsingCoverIndexTxn (hT : ChainCover T)
    (hclosed : ∀ e a, e ∈ T.eventAuthChains → T.Auth e a → a ∈ T.eventAuthChains)
    (hindexed : ∀ e ∈ eventIds, e ∈ T.eventAuthChains) (includeGiven : Bool) :
    ∃ result, getAuthChainIdsUsingCoverIndexTxn engine T eventIds includeGiven = .ok result ∧
      ∀ x, x ∈ result ↔ InAuthChain T eventIds includeGiven x := by
  have hpath : ∀ {e x}, e ∈ T.eventAuthChains → TransGen T.Auth e x → x ∈ T.eventAuthChains := by
    intro e x he hex
    induction hex with
    | single hex => exact hclosed _ _ he hex
    | tail _ hxy ih => exact hclosed _ _ ih hxy
  refine ⟨_, if_neg (not_not.mpr (eventsMissingChainInfo_eq_nil_iff.mpr hindexed)), fun x => ?_⟩
  rw [mem_union_iff, mem_fetchChains_reachableChains engine hT, or_comm]
  refine or_congr ?_ ?_
  · constructor
    · intro h
      obtain ⟨_, e, he, _, hex⟩ := h
      exact ⟨e, mem_dedup.mp he, hex⟩
    · intro h
      obtain ⟨e, he, hex⟩ := h
      exact ⟨hpath (hindexed e he) hex, e, mem_dedup.mpr he, hindexed e he, hex⟩
  · cases includeGiven with
    | true => simp
    | false => simp

theorem getAuthChainIdsUsingCoverIndexTxn_error (includeGiven : Bool)
    (h : ∃ e ∈ eventIds, e ∉ T.eventAuthChains) :
    getAuthChainIdsUsingCoverIndexTxn engine T eventIds includeGiven = .error .noChainCoverIndex := by
  refine if_pos fun hnil => ?_
  obtain ⟨e, he, hnot⟩ := h
  exact hnot (eventsMissingChainInfo_eq_nil_iff.mp hnil e he)

end

/-! ## By walking -/

section
variable [LinearOrder ε] {T : Tables ε ρ τ} {evict : Eviction ε}
  {cache : EventAuthCache ε} {order : IterOrder}

theorem nextFront_spec (hT : T.AuthDag) (hevict : Evicts evict) (hcache : CacheConsistent T cache)
    (front : List ε) : CacheConsistent T (nextFront T evict cache front).2 ∧
      ∀ b, b ∈ (nextFront T evict cache front).1 ↔ ∃ a ∈ front, T.Auth a b := by
  -- after some chunks the auth events of all of their events have been found
  have hchunks := foldl_inv (I := fun done acc => CacheConsistent T acc.2 ∧
      ∀ b, b ∈ acc.1 ↔ ∃ a ∈ done.flatten, T.Auth a b)
    (f := fun acc chunk =>
      let (found, cache) := findAuthEvents T evict acc.2 chunk
      (acc.1 ∪ found.map fun row => row.2.1, cache))
    (s := ([], cache)) (batchIter 100 front)
    (fun done chunk rest acc _ h => ⟨findAuthEvents_cache hT hevict h.1, fun b => ?_⟩)
    ⟨hcache, by simp⟩
  · rw [flatten_batchIter (by decide)] at hchunks
    exact hchunks
  have hfound : b ∈ ((findAuthEvents T evict acc.2 chunk).1.map fun row => row.2.1) ↔
      ∃ a ∈ chunk, T.Auth a b := by
    rw [mem_map]
    constructor
    · intro h'
      obtain ⟨⟨a, b, d⟩, hrow, rfl⟩ := h'
      obtain ⟨ha, hab, _⟩ := (mem_findAuthEvents hT h.1).mp hrow
      exact ⟨a, ha, hab⟩
    · intro h'
      obtain ⟨a, ha, hab⟩ := h'
      exact ⟨(a, b, T.depthOf b), (mem_findAuthEvents hT h.1).mpr ⟨ha, hab, rfl⟩, rfl⟩
  rw [flatten_append, flatten_singleton]
  rw [mem_union_iff, h.2, hfound]
  simp only [mem_append, or_and_right, exists_or]

def authEventsOf (T : Tables ε ρ τ) (events : Finset ε) : Finset ε :=
  ((T.eventAuth.filter fun row => row.1 ∈ events).map Prod.snd).toFinset

theorem mem_authEventsOf {events : Finset ε} {b : ε} :
    b ∈ authEventsOf T events ↔ ∃ a ∈ events, T.Auth a b := by
  unfold authEventsOf
  rw [mem_toFinset, mem_map]
  constructor
  · intro h
    obtain ⟨⟨a, b⟩, hrow, rfl⟩ := h
    obtain ⟨hrow, ha⟩ := mem_filter.mp hrow
    exact ⟨a, of_decide_eq_true ha, hrow⟩
  · intro h
    obtain ⟨a, ha, hab⟩ := h
    exact ⟨(a, b), mem_filter.mpr ⟨hab, decide_eq_true ha⟩, rfl⟩

/-- The loop is a search of the auth graph, whatever is in the cache. -/
theorem authChainLoop_search (hT : T.AuthDag) (hevict : Evicts evict) :
    ∀ {fuel : ℕ} {front results : List ε} {cache : EventAuthCache ε} {found : Finset ε},
      CacheConsistent T cache →
      search (authEventsOf T) fuel front.toFinset results.toFinset = some found →
      ∃ result cache', authChainLoop T evict order fuel front results cache = some (result, cache') ∧
        CacheConsistent T cache' ∧ result.toFinset = found
  | 0, front, results, cache, found, hcache, h => by
    unfold search at h
    simp only [toFinset_eq_empty_iff] at h
    obtain ⟨hnil, h⟩ := Option.ite_none_right_eq_some.mp h
    exact ⟨results, cache, if_pos hnil, hcache, Option.some.inj h⟩
  | fuel + 1, front, results, cache, found, hcache, h => by
    unfold search at h
    unfold authChainLoop
    simp only [toFinset_eq_empty_iff] at h
    split at h
    next hnil => exact ⟨results, cache, if_pos hnil, hcache, Option.some.inj h⟩
    next hne =>
      rw [if_neg hne]
      obtain ⟨hcache', hmem⟩ := nextFront_spec hT hevict hcache (order.order front)
      have hfront : ((nextFront T evict cache (order.order front)).1.filter (· ∉ results)).toFinset =
          authEventsOf T front.toFinset \ results.toFinset := by
        ext b
        rw [mem_toFinset, mem_filter, hmem, Finset.mem_sdiff, mem_authEventsOf,
          decide_eq_true_iff, mem_toFinset]
        simp only [order.mem_order, mem_toFinset]
      rw [← hfront, ← toFinset_union] at h
      exact authChainLoop_search hT hevict hcache' h

/-- As many rounds as there are rows of `event_auth`, and one, are enough. -/
theorem mem_getAuthChainIdsTxn (order : IterOrder) (hT : T.AuthDag) (hevict : Evicts evict)
    (hcache : CacheConsistent T cache) {fuel : ℕ} (hfuel : T.eventAuth.length < fuel)
    (eventIds : List ε) (includeGiven : Bool) :
    ∃ result cache', getAuthChainIdsTxn T evict order fuel cache eventIds includeGiven =
        some (result, cache') ∧ CacheConsistent T cache' ∧
      ∀ x, x ∈ result ↔ InAuthChain T eventIds includeGiven x := by
  let univ := (T.eventAuth.map Prod.snd).toFinset
  let seen := if includeGiven then eventIds.dedup else []
  have hcard : (univ \ seen.toFinset).card < fuel := by
    have hle : univ.card ≤ (T.eventAuth.map Prod.snd).length := toFinset_card_le _
    rw [length_map] at hle
    exact (Finset.card_le_card Finset.sdiff_subset).trans_lt (hle.trans_lt hfuel)
  have hclosed : ∀ x ∈ seen.toFinset, x ∉ eventIds.dedup.toFinset →
      ∀ y, T.Auth x y → y ∈ seen.toFinset := by
    intro x hx hnot
    cases includeGiven with
    | true => exact absurd hx hnot
    | false => exact absurd (mem_toFinset.mp hx) not_mem_nil
  obtain ⟨found, hsearch, hfound⟩ := search_spec univ (fun _ _ => mem_authEventsOf)
    (fun x y hxy => mem_toFinset.mpr (mem_map_of_mem hxy)) hclosed (.inr hcard)
  obtain ⟨result, cache', hrun, hcache', rfl⟩ := authChainLoop_search hT hevict hcache hsearch
  refine ⟨result, cache', hrun, hcache', fun x => ?_⟩
  rw [← mem_toFinset, hfound]
  unfold InAuthChain
  cases includeGiven with
  | true => simp [seen, or_comm]
  | false => simp [seen]

/-! ## Both -/

/-- **The two ways agree.**  The index is used exactly if all the given events are in it, and then finds
what the walk finds; and what `get_auth_chain_ids` returns is right in any case. -/
theorem getAuthChainIds_agree (engine : DatabaseEngine) (T : Tables ε ρ τ)
    (evict : Eviction ε) (order : IterOrder) (hT : T.AuthDag)
    (hcover : ChainCover T) (hclosed : ∀ e a, e ∈ T.eventAuthChains → T.Auth e a → a ∈ T.eventAuthChains)
    (hevict : Evicts evict) (hcache : CacheConsistent T cache) (fuel : ℕ)
    (hfuel : T.eventAuth.length < fuel) (eventIds : List ε) (includeGiven : Bool) :
    (∃ result cache', getAuthChainIdsTxn T evict order fuel cache eventIds includeGiven =
        some (result, cache') ∧ ∀ x, x ∈ result ↔ InAuthChain T eventIds includeGiven x) ∧
    ((∃ result, getAuthChainIdsUsingCoverIndexTxn engine T eventIds includeGiven = .ok result ∧
        ∀ x, x ∈ result ↔ InAuthChain T eventIds includeGiven x) ↔
      ∀ e ∈ eventIds, e ∈ T.eventAuthChains) ∧
    ((∃ e ∈ eventIds, e ∉ T.eventAuthChains) →
      getAuthChainIdsUsingCoverIndexTxn engine T eventIds includeGiven = .error .noChainCoverIndex) ∧
    ∀ hasChainCover, ∃ result cache', getAuthChainIds engine T evict order fuel cache hasChainCover
        eventIds includeGiven = some (result, cache') ∧
      ∀ x, x ∈ result ↔ InAuthChain T eventIds includeGiven x := by
  obtain ⟨walked, cache', hwalk, _, hwalked⟩ :=
    mem_getAuthChainIdsTxn order hT hevict hcache hfuel eventIds includeGiven
  refine ⟨⟨walked, cache', hwalk, hwalked⟩, ⟨fun h => ?_, fun h => ?_⟩, fun h => ?_, fun hasChainCover => ?_⟩
  · obtain ⟨result, hresult, _⟩ := h
    by_contra hnot
    simp only [not_forall, exists_prop] at hnot
    rw [getAuthChainIdsUsingCoverIndexTxn_error engine includeGiven hnot] at hresult
    exact nomatch hresult
  · exact mem_getAuthChainIdsUsingCoverIndexTxn engine hcover hclosed h includeGiven
  · exact getAuthChainIdsUsingCoverIndexTxn_error engine includeGiven h
  · unfold getAuthChainIds
    by_cases hindexed : ∀ e ∈ eventIds, e ∈ T.eventAuthChains
    · obtain ⟨result, hresult, hmem⟩ :=
        mem_getAuthChainIdsUsingCoverIndexTxn engine hcover hclosed hindexed includeGiven
      rw [hresult]
      cases hasChainCover with
      | true => exact ⟨result, cache, rfl, hmem⟩
      | false => exact ⟨walked, cache', hwalk, hwalked⟩
    · simp only [not_forall, exists_prop] at hindexed
      rw [getAuthChainIdsUsingCoverIndexTxn_error engine includeGiven hindexed]
      cases hasChainCover with
      | true => exact ⟨walked, cache', hwalk, hwalked⟩
      | false => exact ⟨walked, cache', hwalk, hwalked⟩

/-- Of the ladder's events, the walk and the index find what is below the third one; the fourth one is not
in the index. -/
theorem getAuthChainIds_agree_ladder :
    (∃ result, getAuthChainIdsUsingCoverIndexTxn .sqlite ladder [2] false = .ok result ∧
      ∀ x, x ∈ result ↔ InAuthChain ladder [2] false x) ∧
    ∃ result cache', getAuthChainIds .postgres ladder id .insertion 4 ∅ true [3, 1]
        true = some (result, cache') ∧ ∀ x, x ∈ result ↔ InAuthChain ladder [3, 1] true x := by
  have hclosed : ∀ e a, e ∈ ladder.eventAuthChains → ladder.Auth e a → a ∈ ladder.eventAuthChains :=
    fun e a => ladder_toCalculate.closed
  have hagree := fun engine eventIds => getAuthChainIds_agree engine ladder id
    .insertion ladder_authDag ladder_chainCover hclosed (fun _ _ _ => id)
    cacheConsistent_empty 4 (by decide) eventIds
  exact ⟨(hagree .sqlite [2] false).2.1.mpr (by decide), (hagree .postgres [3, 1] true).2.2.2 true⟩

/-- For an event without a chain the index is of no use. -/
theorem getAuthChainIdsUsingCoverIndexTxn_ladder :
    getAuthChainIdsUsingCoverIndexTxn .postgres ladder [3] false = .error .noChainCoverIndex ∧
      (getAuthChainIdsTxn ladder id .insertion 4 ∅ [3] false).map Prod.fst =
        some [2, 1, 0] := ⟨by decide +kernel, by decide +kernel⟩

end
end Synapse.Storage
