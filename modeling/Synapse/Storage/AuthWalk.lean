import Mathlib.Data.Prod.Lex
import Synapse.Storage.EventTables
import Synapse.Util.Sorting

/-!
# The breadth first auth chain difference

`_get_auth_chain_difference_txn` walks the auth graph from all state sets at once.  For every event
met so far it keeps the numbers of the state sets that have *not* been seen to reach it, and for
every event already walked the auth events it led to.  When a walk meets an event again, the event
and everything recorded below it are marked as reached by whatever reaches the citing event.

The heart of this file is that the missing sets are never approximate.  After every single row that
is processed, the sets missing from an event are exactly those that do not reach it along the rows
recorded so far (`AuthWalk.Exact`); recording one more row is the addition of one edge, and
`_addEdge` reachability says which missing sets that changes.  So whatever the function returns, it
has computed the right answer *for the part of the graph it has walked*.  What that is worth for the
whole graph is the subject of `Synapse.Storage.AuthWalkStop`.
-/

namespace Synapse.Storage

open Synapse.Util Relation List AList

variable {ε ρ τ : Type} [LinearOrder ε]

/-- `_event_auth_cache`: the auth events of an event, each with its depth. -/
abbrev EventAuthCache (ε : Type) := Dict ε (List (ε × ℤ))

/-- What is left of the cache when it is read again. -/
abbrev Eviction (ε : Type) := EventAuthCache ε → EventAuthCache ε

/-- The local variables of `_get_auth_chain_difference_txn`.  `search` is ordered by depth and then
by event ID, as Python orders pairs. -/
structure AuthWalk (ε : Type) where
  eventToMissingSets : Dict ε (Finset ℕ)
  eventToAuthEvents : Dict ε (List ε)
  search : List (ℤ ×ₗ ε)

/-! ## The code -/

/-- `event_to_missing_sets[a_id].intersection_update(event_to_missing_sets[event_id])`; `none` is
the `KeyError`. -/
def intersectionUpdate (missing : Dict ε (Finset ℕ)) (aId eventId : ε) : Option (Dict ε (Finset ℕ)) := do
  let sets ← missing.lookup aId
  let other ← missing.lookup eventId
  return missing.insert aId (sets ∩ other)

/-- The `while a_ids` loop, one level of ancestors in each turn. -/
def markAncestors (authEvents : Dict ε (List ε)) (eventId : ε) :
    ℕ → List ε → Dict ε (Finset ℕ) → Option (Dict ε (Finset ℕ))
  | _, [], missing => some missing
  | 0, _ :: _, _ => none
  | fuel + 1, aId :: aIds, missing => do
    let missing ← (aId :: aIds).foldlM (fun m a => intersectionUpdate m a eventId) missing
    let newAids := ((aId :: aIds).flatMap fun a => authEvents.getD a []).dedup
    markAncestors authEvents eventId fuel newAids missing

/-- The body of the loop over `found`, for `n` state sets. -/
def recordAuthEvent (fuel n : ℕ) (st : AuthWalk ε) : ε × ε × ℤ → Option (AuthWalk ε)
  | (eventId, authId, depth) =>
    let authEvents : Dict ε (List ε) := st.eventToAuthEvents.insert eventId
      ((st.eventToAuthEvents.getD eventId []).insert authId)
    match st.eventToMissingSets.lookup authId with
    | none => do
      -- first time we see this event: unreachable until proven otherwise
      let missing := st.eventToMissingSets.insert authId (Finset.range n)
      let missing ← intersectionUpdate missing authId eventId
      return ⟨missing, authEvents, st.search ++ [toLex (depth, authId)]⟩
    | some _ => do
      let missing ← markAncestors authEvents eventId fuel (authEvents.getD authId [])
        st.eventToMissingSets
      let missing ← intersectionUpdate missing authId eventId
      return ⟨missing, authEvents, st.search⟩

/-- `all(not event_to_missing_sets[eid] for _, eid in search)`. -/
def allReachable (missing : Dict ε (Finset ℕ)) : List (ℤ ×ₗ ε) → Option Bool
  | [] => some true
  | q :: search => do
    let sets ← missing.lookup (ofLex q).2
    if sets = ∅ then allReachable missing search else return false

/-- The rows of `event_auth` of the given events, joined with the depth of the auth event. -/
def fetchAuthEvents (T : Tables ε ρ τ) (toFetch : List ε) : List (ε × ε × ℤ) :=
  T.eventAuth.filterMap fun row =>
    if row.1 ∈ toFetch then (T.events.lookup row.2).map fun e => (row.1, row.2, e.depth) else none

/-- `to_cache`: the fetched rows, batched up by event ID. -/
def toCache (rows : List (ε × ε × ℤ)) : EventAuthCache ε :=
  rows.foldl (fun d row => d.insert row.1 (d.getD row.1 [] ++ [row.2])) ∅

/-- The `found` rows for a chunk of events, and the cache afterwards.  What else an insertion into
the cache throws out is up to `evict`. -/
def findAuthEvents (T : Tables ε ρ τ) (evict : Eviction ε)
    (cache : EventAuthCache ε) (chunk : List ε) : List (ε × ε × ℤ) × EventAuthCache ε :=
  let cached := chunk.flatMap fun e => (cache.getD e []).map fun res => (e, res)
  let rows := fetchAuthEvents T (chunk.filter fun e => (cache.lookup e).isNone)
  (cached ++ rows, (toCache rows).entries.foldl (fun c entry => evict (c.insert entry.1 entry.2)) cache)

/-- `search[:-100]`: what stays queued in a round. -/
def AuthWalk.rest (st : AuthWalk ε) : AuthWalk ε :=
  { st with search := st.search.take (st.search.length - 100) }

/-- `search[-100:]`: the events whose auth events are looked up in a round. -/
def AuthWalk.chunk (st : AuthWalk ε) : List ε :=
  (st.search.drop (st.search.length - 100)).map fun q => (ofLex q).2

/-- The `while search` loop. -/
def searchLoop (T : Tables ε ρ τ) (evict : Eviction ε) (markFuel n : ℕ) :
    ℕ → AuthWalk ε → EventAuthCache ε → Option (AuthWalk ε × EventAuthCache ε)
  | 0, _, _ => none
  | fuel + 1, st, cache =>
    if st.search = [] then some (st, cache) else do
      if ← allReachable st.eventToMissingSets st.search then return (st, cache)
      let (found, cache) := findAuthEvents T evict cache st.chunk
      let st ← found.foldlM (recordAuthEvent markFuel n) st.rest
      searchLoop T evict markFuel n fuel
        { st with search := st.search.insertionSort (· ≤ ·) } cache

/-- `{i for i, a in enumerate(state_sets) if event_id not in a}`. -/
def missingFrom (stateSets : List (List ε)) (e : ε) : Finset ℕ :=
  (Finset.range stateSets.length).filter fun i => e ∉ stateSets.getD i []

/-- `SELECT depth, event_id FROM events` for the initial events.  The code does this in batches;
what it does with the rows does not depend on their order. -/
def fetchDepths (T : Tables ε ρ τ) (initialEvents : List ε) : List (ℤ ×ₗ ε) :=
  T.events.entries.filterMap fun row =>
    if row.1 ∈ initialEvents then some (toLex (row.2.depth, row.1)) else none

/-- The variables before the loop. -/
def startWalk (T : Tables ε ρ τ) (stateSets : List (List ε)) : AuthWalk ε :=
  let initialEvents := stateSets.flatten.dedup
  { eventToMissingSets := Dict.ofKeys initialEvents (missingFrom stateSets)
    eventToAuthEvents := ∅
    search := (fetchDepths T initialEvents).insertionSort (· ≤ ·) }

/-- `_get_auth_chain_difference_txn`, with the auth event cache passed in and out.  `none` is an
exception, or a loop that has not ended after `fuel` turns. -/
def getAuthChainDifferenceTxn (T : Tables ε ρ τ) (evict : Eviction ε)
    (fuel : ℕ) (cache : EventAuthCache ε) (stateSets : List (List ε)) :
    Option (List ε × EventAuthCache ε) :=
  match stateSets with
  | [] => none
  | _ :: _ => do
    let (st, cache) ← searchLoop T evict fuel stateSets.length fuel (startWalk T stateSets) cache
    let result := st.eventToMissingSets.entries.filter fun entry => entry.2 ≠ ∅
    return (result.map fun entry => entry.1, cache)

/-! ## Marking -/

/-- `m'` is `m` with `sets` intersected into the entries of exactly the events of `P`. -/
def Marked (sets : Finset ℕ) (P : ε → Prop) (m m' : Dict ε (Finset ℕ)) : Prop :=
  ∀ x, (P x → m'.lookup x = (m.lookup x).map (· ∩ sets)) ∧ (¬ P x → m'.lookup x = m.lookup x)

namespace Marked
variable {sets : Finset ℕ} {P Q : ε → Prop} {m m' m'' : Dict ε (Finset ℕ)} {x : ε}

theorem of_forall_not (h : ∀ x, ¬ P x) : Marked sets P m m :=
  fun x => ⟨fun hx => absurd hx (h x), fun _ => rfl⟩

theorem trans (h : Marked sets P m m') (h' : Marked sets Q m' m'') :
    Marked sets (fun x => P x ∨ Q x) m m'' := by
  intro x
  obtain ⟨hP, hnP⟩ := h x
  obtain ⟨hQ, hnQ⟩ := h' x
  constructor
  · intro hx
    by_cases q : Q x
    · by_cases p : P x
      · rw [hQ q, hP p, Option.map_map]
        congr 1
        funext s
        show s ∩ sets ∩ sets = s ∩ sets
        rw [Finset.inter_assoc, Finset.inter_self]
      · rw [hQ q, hnP p]
    · rw [hnQ q, hP (hx.resolve_right q)]
  · intro hx
    rw [hnQ fun q => hx (.inr q), hnP fun p => hx (.inl p)]

theorem congr (h : Marked sets P m m') (hPQ : ∀ x, P x ↔ Q x) : Marked sets Q m m' := by
  intro x
  rw [← hPQ x]
  exact h x

theorem mem_iff (h : Marked sets P m m') : x ∈ m' ↔ x ∈ m := by
  rw [← lookup_isSome, ← lookup_isSome]
  by_cases hx : P x
  · rw [(h x).1 hx, Option.isSome_map]
  · rw [(h x).2 hx]

end Marked

variable {sets : Finset ℕ} {m : Dict ε (Finset ℕ)}

theorem intersectionUpdate_spec {a u : ε} (ha : a ∈ m) (hu : m.lookup u = some sets) :
    ∃ m', intersectionUpdate m a u = some m' ∧ Marked sets (· = a) m m' := by
  obtain ⟨s, hs⟩ := Dict.exists_lookup ha
  refine ⟨m.insert a (s ∩ sets), ?_, fun x => ⟨?_, ?_⟩⟩
  · simp [intersectionUpdate, hs, hu]
  · rintro rfl
    rw [lookup_insert, hs]
    rfl
  · intro hx
    rw [lookup_insert_ne hx]

theorem foldlM_intersectionUpdate_spec {u : ε} (aIds : List ε) (hu : u ∉ aIds)
    (hm : ∀ a ∈ aIds, a ∈ m) (hsets : m.lookup u = some sets) :
    ∃ m', aIds.foldlM (fun m a => intersectionUpdate m a u) m = some m' ∧
      Marked sets (· ∈ aIds) m m' := by
  induction aIds generalizing m with
  | nil => exact ⟨m, rfl, .of_forall_not fun _ => not_mem_nil⟩
  | cons a aIds ih =>
    rw [mem_cons, not_or] at hu
    obtain ⟨m₁, h₁, hm₁⟩ := intersectionUpdate_spec (hm a mem_cons_self) hsets
    have hsets₁ : m₁.lookup u = some sets := by
      rw [(hm₁ u).2 hu.1, hsets]
    have hmem₁ : ∀ b ∈ aIds, b ∈ m₁ := fun b hb => hm₁.mem_iff.mpr (hm b (mem_cons_of_mem _ hb))
    obtain ⟨m', h', hm'⟩ := ih hu.2 hmem₁ hsets₁
    refine ⟨m', ?_, (hm₁.trans hm').congr fun x => mem_cons.symm⟩
    rw [foldlM_cons, h₁]
    exact h'

variable {E : ε → ε → Prop}

/-- The marking loop ends and marks exactly what lies at or below the events it starts from.
`height` bounds the number of levels; the marking event itself must not be below. -/
theorem markAncestors_spec {authEvents : Dict ε (List ε)}
    (hE : ∀ {a b}, E a b ↔ b ∈ authEvents.getD a []) {height : ε → ℕ}
    (hheight : ∀ {a b}, E a b → height b < height a) {u : ε} :
    ∀ (fuel : ℕ) (aIds : List ε) (m : Dict ε (Finset ℕ)),
      (∀ a ∈ aIds, height a < fuel) → (∀ a ∈ aIds, ∀ x, ReflTransGen E a x → x ∈ m) →
      (∀ a ∈ aIds, ¬ ReflTransGen E a u) → m.lookup u = some sets →
      ∃ m', markAncestors authEvents u fuel aIds m = some m' ∧
        Marked sets (fun x => ∃ a ∈ aIds, ReflTransGen E a x) m m'
  | fuel, [], m, _, _, _, _ =>
    ⟨m, by cases fuel <;> rfl, .of_forall_not fun x => by simp⟩
  | 0, a :: aIds, _, hfuel, _, _, _ => absurd (hfuel a mem_cons_self) (Nat.not_lt_zero _)
  | fuel + 1, a :: aIds, m, hfuel, hm, hu, hsets => by
    have hmem : ∀ b ∈ a :: aIds, b ∈ m := fun b hb => hm b hb b .refl
    have hne : u ∉ a :: aIds := fun h => hu u h .refl
    obtain ⟨m₁, h₁, hm₁⟩ := foldlM_intersectionUpdate_spec (a :: aIds) hne hmem hsets
    -- the next level: the auth events of this one
    have hnew : ∀ b, b ∈ ((a :: aIds).flatMap fun a => authEvents.getD a []).dedup ↔
        ∃ c ∈ a :: aIds, E c b := by
      intro b
      rw [mem_dedup, mem_flatMap]
      simp only [hE]
    have hfuel₁ : ∀ b ∈ ((a :: aIds).flatMap fun a => authEvents.getD a []).dedup, height b < fuel := by
      intro b hb
      obtain ⟨c, hc, hcb⟩ := (hnew b).mp hb
      have := hfuel c hc
      have := hheight hcb
      omega
    obtain ⟨m', h', hm'⟩ := markAncestors_spec hE hheight fuel _ m₁ hfuel₁ (fun b hb x hx => by
        obtain ⟨c, hc, hcb⟩ := (hnew b).mp hb
        exact hm₁.mem_iff.mpr (hm c hc x (.head hcb hx)))
      (fun b hb hx => by
        obtain ⟨c, hc, hcb⟩ := (hnew b).mp hb
        exact hu c hc (.head hcb hx))
      (by rw [(hm₁ u).2 hne, hsets])
    refine ⟨m', ?_, (hm₁.trans hm').congr fun x => ?_⟩
    · rw [markAncestors, h₁]
      exact h'
    · constructor
      · rintro (hx | ⟨b, hb, hbx⟩)
        · exact ⟨x, hx, .refl⟩
        · obtain ⟨c, hc, hcb⟩ := (hnew b).mp hb
          exact ⟨c, hc, .head hcb hbx⟩
      · rintro ⟨c, hc, hcx⟩
        rcases hcx.cases_head with rfl | ⟨b, hcb, hbx⟩
        · exact .inl hc
        · exact .inr ⟨b, (hnew b).mpr ⟨c, hc, hcb⟩, hbx⟩

/-! ## Recording a row -/

/-- The auth rows recorded so far. -/
def AuthWalk.Edge (st : AuthWalk ε) (a b : ε) : Prop := b ∈ st.eventToAuthEvents.getD a []

/-- The sets missing from an event are those that do not reach it along `E`. -/
def MissingExact (stateSets : List (List ε)) (E : ε → ε → Prop) (m : Dict ε (Finset ℕ)) : Prop :=
  ∀ x s, m.lookup x = some s → ∀ i, i ∈ s ↔ ∃ S, stateSets[i]? = some S ∧ ¬ Reaches E S x

/-- What the loop maintains from row to row. -/
structure AuthWalk.Exact (T : Tables ε ρ τ) (stateSets : List (List ε)) (st : AuthWalk ε) : Prop where
  auth : ∀ {a b}, st.Edge a b → T.Auth a b
  origin : ∀ {a b}, st.Edge a b → a ∈ st.eventToMissingSets
  target : ∀ {a b}, st.Edge a b → b ∈ st.eventToMissingSets
  initial : ∀ {S x}, S ∈ stateSets → x ∈ S → x ∈ st.eventToMissingSets
  missing : MissingExact stateSets st.Edge st.eventToMissingSets

section
variable {T : Tables ε ρ τ} {stateSets : List (List ε)} {st : AuthWalk ε} {u v : ε}

theorem AuthWalk.Exact.mem_of_reaches (h : st.Exact T stateSets) {S : List ε} (hS : S ∈ stateSets)
    {x : ε} (hx : Reaches st.Edge S x) : x ∈ st.eventToMissingSets := by
  obtain ⟨s, hs, hsx⟩ := hx
  cases hsx with
  | refl => exact h.initial hS hs
  | tail _ hbx => exact h.target hbx

/-- Adding an edge `u → v`: the sets that reach `u` now also reach everything below `v`. -/
theorem MissingExact.addEdge {m m' : Dict ε (Finset ℕ)} {sets : Finset ℕ}
    (h : MissingExact stateSets E m) (hu : m.lookup u = some sets)
    (hm : Marked sets (fun x => ReflTransGen E v x) m m') :
    MissingExact stateSets (AddEdge E u v) m' := by
  intro x s' hs' i
  by_cases hx : ReflTransGen E v x
  · rw [(hm x).1 hx, Option.map_eq_some_iff] at hs'
    obtain ⟨s, hs, rfl⟩ := hs'
    rw [Finset.mem_inter, h x s hs, h u sets hu]
    constructor
    · rintro ⟨⟨S, hS, hSx⟩, S', hS', hSu⟩
      obtain rfl := Option.some.inj (hS.symm.trans hS')
      refine ⟨S, hS, fun hr => ?_⟩
      rcases reaches_addEdge.mp hr with hr | ⟨hr, _⟩
      · exact hSx hr
      · exact hSu hr
    · rintro ⟨S, hS, hSx⟩
      exact ⟨⟨S, hS, fun hr => hSx (reaches_addEdge.mpr (.inl hr))⟩,
        S, hS, fun hr => hSx (reaches_addEdge.mpr (.inr ⟨hr, hx⟩))⟩
  · rw [(hm x).2 hx] at hs'
    rw [h x s' hs']
    refine exists_congr fun S => and_congr_right fun _ => not_congr ?_
    rw [reaches_addEdge, or_iff_left fun hr => hx hr.2]

/-- Setting the missing sets of an event nobody has reached to all sets. -/
theorem AuthWalk.Exact.missing_insert (h : st.Exact T stateSets) (hv : v ∉ st.eventToMissingSets) :
    MissingExact stateSets st.Edge (st.eventToMissingSets.insert v (Finset.range stateSets.length)) := by
  intro x s hs i
  rcases Dict.lookup_insert_cases hs with ⟨rfl, rfl⟩ | ⟨_, hs⟩
  · rw [Finset.mem_range]
    constructor
    · intro hi
      refine ⟨stateSets[i], getElem?_eq_getElem hi, fun hr => hv ?_⟩
      exact h.mem_of_reaches (getElem_mem hi) hr
    · rintro ⟨S, hS, _⟩
      exact (List.getElem?_eq_some_iff.mp hS).1
  · exact h.missing x s hs i

theorem edge_insert {d : Dict ε (List ε)} {a b : ε} :
    b ∈ Dict.getD (d.insert u ((d.getD u []).insert v)) a [] ↔
      AddEdge (fun a b => b ∈ d.getD a []) u v a b := Dict.mem_getD_insert_insert

/-- One row: it adds its edge, meets its auth event, queues it if it is new, and keeps the missing
sets exact. -/
theorem recordAuthEvent_spec (hT : T.AuthDag) {fuel : ℕ} (hfuel : T.events.keys.length ≤ fuel)
    (h : st.Exact T stateSets) (hu : u ∈ st.eventToMissingSets) (huv : T.Auth u v) (d : ℤ) :
    ∃ st', recordAuthEvent fuel stateSets.length st (u, v, d) = some st' ∧
      st'.Exact T stateSets ∧ (∀ {a b}, st'.Edge a b ↔ AddEdge st.Edge u v a b) ∧
      (∀ {x}, x ∈ st'.eventToMissingSets ↔ x ∈ st.eventToMissingSets ∨ x = v) ∧ st'.search =
        if v ∈ st.eventToMissingSets then st.search else st.search ++ [toLex (d, v)] := by
  obtain ⟨sets, hsets⟩ := Dict.exists_lookup hu
  have hne : u ≠ v := hT.acyclic.ne_of_edge huv
  -- nothing recorded leads from `v` back to `u`
  have hback : ∀ {x}, ReflTransGen st.Edge v x → x ≠ u := by
    rintro x hx rfl
    exact hT.acyclic.not_edge_back (ReflTransGen.mono (fun _ _ => h.auth) _ _ hx) huv
  have hauth : ∀ {a b}, AddEdge st.Edge u v a b → T.Auth a b := by
    rintro a b (hab | ⟨rfl, rfl⟩)
    · exact h.auth hab
    · exact huv
  have hbelow : ∀ x, ReflTransGen (AddEdge st.Edge u v) v x ↔ ReflTransGen st.Edge v x := by
    intro x
    rw [reflTransGen_addEdge, or_iff_left fun hx => hback hx.1 rfl]
  let authEvents : Dict ε (List ε) :=
    st.eventToAuthEvents.insert u ((st.eventToAuthEvents.getD u []).insert v)
  have hedge : ∀ {a b}, b ∈ authEvents.getD a [] ↔ AddEdge st.Edge u v a b := edge_insert
  -- it is enough to say how the missing sets change, from a state in which `v` has an entry
  have finish : ∀ (m m' : Dict ε (Finset ℕ)) (search : List (ℤ ×ₗ ε)),
      MissingExact stateSets st.Edge m → m.lookup u = some sets →
      (∀ {x}, x ∈ m ↔ x ∈ st.eventToMissingSets ∨ x = v) →
      Marked sets (fun x => ReflTransGen st.Edge v x) m m' →
      (AuthWalk.mk m' authEvents search).Exact T stateSets ∧
        ∀ {x}, x ∈ m' ↔ x ∈ st.eventToMissingSets ∨ x = v := by
    intro m m' search hm hmu hmem hmark
    have hmem' : ∀ {x}, x ∈ m' ↔ x ∈ st.eventToMissingSets ∨ x = v := hmark.mem_iff.trans hmem
    refine ⟨⟨fun hab => hauth (hedge.mp hab), ?_, ?_, ?_, ?_⟩, hmem'⟩
    · intro a b hab
      rcases hedge.mp hab with hab | ⟨rfl, _⟩
      · exact hmem'.mpr (.inl (h.origin hab))
      · exact hmem'.mpr (.inl hu)
    · intro a b hab
      rcases hedge.mp hab with hab | ⟨_, rfl⟩
      · exact hmem'.mpr (.inl (h.target hab))
      · exact hmem'.mpr (.inr rfl)
    · intro S x hS hx
      exact hmem'.mpr (.inl (h.initial hS hx))
    · have heq : (AuthWalk.mk m' authEvents search).Edge = AddEdge st.Edge u v := by
        funext a b
        exact propext hedge
      rw [heq]
      exact hm.addEdge hmu hmark
  by_cases hv : v ∈ st.eventToMissingSets
  · obtain ⟨s, hs⟩ := Dict.exists_lookup hv
    have hheight : ∀ {a b}, AddEdge st.Edge u v a b →
        height T.Auth T.events.keys.toFinset b < height T.Auth T.events.keys.toFinset a :=
      fun hab => height_lt_of_edge hT.acyclic (mem_toFinset.mpr (hT.persisted (hauth hab))) (hauth hab)
    have hhead : ∀ {a x}, a ∈ authEvents.getD v [] → ReflTransGen (AddEdge st.Edge u v) a x →
        ReflTransGen st.Edge v x := fun ha hx => (hbelow _).mp (.head (hedge.mp ha) hx)
    obtain ⟨m₁, h₁, hm₁⟩ := markAncestors_spec (fun {a b} => hedge.symm)
      hheight fuel (authEvents.getD v []) st.eventToMissingSets
      (fun a ha => by
        have hva := hauth (hedge.mp ha)
        have hlt := height_lt_card hT.acyclic (mem_toFinset.mpr (hT.persisted hva))
        have hcard := toFinset_card_le T.events.keys
        omega)
      (fun a ha x hx => by
        cases hhead ha hx with
        | refl => exact hv
        | tail _ hbx => exact h.target hbx)
      (fun a ha hx => hback (hhead ha hx) rfl) hsets
    have hu₁ : m₁.lookup u = some sets := by
      rw [(hm₁ u).2, hsets]
      rintro ⟨a, ha, hx⟩
      exact hback (hhead ha hx) rfl
    obtain ⟨m', h', hm'⟩ := intersectionUpdate_spec (hm₁.mem_iff.mpr hv) hu₁
    have hmark : Marked sets (fun x => ReflTransGen st.Edge v x) st.eventToMissingSets m' := by
      refine (hm₁.trans hm').congr fun x => ⟨?_, fun hx => ?_⟩
      · rintro (⟨a, ha, hx⟩ | rfl)
        · exact hhead ha hx
        · exact .refl
      · rcases ((hbelow x).mpr hx).cases_head with rfl | ⟨a, hva, hax⟩
        · exact .inr rfl
        · exact .inl ⟨a, hedge.mpr hva, hax⟩
    have hmem : ∀ {x}, x ∈ st.eventToMissingSets ↔ x ∈ st.eventToMissingSets ∨ x = v :=
      fun {x} => (or_iff_left_of_imp fun hx => hx ▸ hv).symm
    obtain ⟨hexact, hseen⟩ := finish _ m' st.search h.missing hsets hmem hmark
    refine ⟨⟨m', authEvents, st.search⟩, ?_, hexact, hedge, hseen, (if_pos hv).symm⟩
    simp only [recordAuthEvent, hs]
    rw [h₁]
    simp only [Option.bind_eq_bind, Option.bind_some]
    rw [h']
    rfl
  · have hnone : st.eventToMissingSets.lookup v = none := lookup_eq_none.mpr hv
    have hu₁ : (st.eventToMissingSets.insert v (Finset.range stateSets.length)).lookup u = some sets := by
      rw [lookup_insert_ne hne, hsets]
    obtain ⟨m', h', hm'⟩ := intersectionUpdate_spec (mem_insert _ |>.mpr (.inl rfl)) hu₁
    -- nothing has been recorded below an event that has not been met
    have hmark : Marked sets (fun x => ReflTransGen st.Edge v x)
        (st.eventToMissingSets.insert v (Finset.range stateSets.length)) m' := by
      refine hm'.congr fun x => ⟨?_, fun hx => ?_⟩
      · rintro rfl
        exact .refl
      · rcases hx.cases_head with rfl | ⟨a, hva, _⟩
        · rfl
        · exact absurd (h.origin hva) hv
    have hmem : ∀ {x}, x ∈ st.eventToMissingSets.insert v (Finset.range stateSets.length) ↔
        x ∈ st.eventToMissingSets ∨ x = v := fun {x} => (mem_insert _).trans or_comm
    obtain ⟨hexact, hseen⟩ :=
      finish _ m' (st.search ++ [toLex (d, v)]) (h.missing_insert hv) hu₁ hmem hmark
    refine ⟨⟨m', authEvents, st.search ++ [toLex (d, v)]⟩, ?_, hexact, hedge, hseen, (if_neg hv).symm⟩
    simp only [recordAuthEvent, hnone]
    rw [h']
    rfl

end
end Synapse.Storage
