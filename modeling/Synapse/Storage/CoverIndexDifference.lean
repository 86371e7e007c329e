import Mathlib.Data.List.MinMax
import Synapse.Storage.EventTables
import Synapse.Util.Loops

/-!
# The auth chain difference by the chain cover index

`_get_auth_chain_difference_using_cover_index_txn` computes, for each state set, the greatest
sequence number it reaches in every chain, and takes from each chain the events between the least
and the greatest of these numbers.  Events that have no chain yet are handled first, by
`_fixup_auth_chain_difference_sets`: they are replaced in the state sets by the indexed events they
lead to, and their own part of the difference is computed directly.

The argument has the same two halves.

* A *chain cover* (`ChainCover`) places every indexed event in a chain so that an event reaches
  everything before it in its chain, and, through the links, an initial segment of other chains.  So
  what a state set of indexed events reaches in a chain is an initial segment, and the loops over the
  links find its end although they update the same dictionary that they read
  (`reachIn_extendChains`).
* No indexed event leads to an un-indexed one.  So the un-indexed part of what a state set reaches is
  found by walking un-indexed events alone, and the indexed part is what the rewritten set reaches.
  That half is in `Synapse.Storage.CoverIndexFixup`.
-/

namespace Synapse.Storage

open Synapse.Util Relation List AList Dict

variable {ε ρ τ : Type} [DecidableEq ε]

/-- What the function raises; `fuel` is a loop cut short. -/
inductive CoverIndexError
  | noChainCoverIndex
  | indexError
  | keyError
  | fuel
  deriving DecidableEq, Repr

/-! ## The code -/

/-- The variables that `fetch_chain_info` fills; `chain_to_event` is keyed by chain ID and sequence
number at once. -/
structure ChainInfo (ε : Type) where
  chainInfo : Dict ε ChainPos
  chainToEvent : Dict ChainPos ε
  seenChains : List ℕ

def ChainInfo.empty : ChainInfo ε := ⟨∅, ∅, []⟩

/-- The loop body of `fetch_chain_info`. -/
def ChainInfo.addRow (info : ChainInfo ε) (row : Sigma fun _ : ε => ChainPos) : ChainInfo ε where
  chainInfo := info.chainInfo.insert row.1 row.2
  chainToEvent := info.chainToEvent.insert row.2 row.1
  seenChains := info.seenChains.insert row.2.1

variable (T : Tables ε ρ τ)

/-- `fetch_chain_info`.  Fetching in batches makes no difference to the rows. -/
def fetchChainInfo (info : ChainInfo ε) (eventsToFetch : List ε) : ChainInfo ε :=
  (T.eventAuthChains.entries.filter fun row => row.1 ∈ eventsToFetch).foldl ChainInfo.addRow info

/-- The loop body that notes the place of one state event. -/
def addStateEvent (chainInfo : Dict ε ChainPos) (chains : Dict ℕ ℕ) (stateId : ε) :
    Except CoverIndexError (Dict ℕ ℕ) :=
  match chainInfo.lookup stateId with
  | none => .error .keyError
  | some (chainId, seqNo) => .ok (chains.insert chainId (max seqNo (chains.getD chainId 0)))

/-- The greatest sequence numbers of a state set's own events. -/
def setToChain (chainInfo : Dict ε ChainPos) (stateSet : List ε) : Except CoverIndexError (Dict ℕ ℕ) :=
  stateSet.foldlM (addStateEvent chainInfo) ∅

/-- What one row of `event_auth_chain_links` does to the chains of one state set. -/
def linkChains (row : ChainPos × ChainPos) (chains : Dict ℕ ℕ) : Dict ℕ ℕ :=
  if row.1.2 ≤ chains.getD row.1.1 0 then
    chains.insert row.2.1 (max row.2.2 (chains.getD row.2.1 0))
  else chains

variable (seenChains : List ℕ) (sets : List (Dict ℕ ℕ))

/-- The loop over the links of the chains seen: it extends each state set's chains in place. -/
def followLinks : List (Dict ℕ ℕ) × List ℕ :=
  (T.eventAuthChainLinks.filter fun row => row.1.1 ∈ seenChains).foldl
    (fun acc row => (acc.1.map (linkChains row), acc.2.insert row.2.1)) (sets, seenChains)

/-- Takes the events of a range of sequence numbers from those already fetched, up to the first
that is not there; `true` says that there was one. -/
def fillGap (chainToEvent : Dict ChainPos ε) (chainId : ℕ) : List ℕ → List ε × Bool
  | [] => ([], false)
  | seqNo :: seqNos =>
    match chainToEvent.lookup (chainId, seqNo) with
    | none => ([], true)
    | some eventId =>
      let (eventIds, gap) := fillGap chainToEvent chainId seqNos
      (eventId :: eventIds, gap)

/-- The least sequence number reached from all sets. -/
def minSeqNo (sets : List (Dict ℕ ℕ)) (chainId : ℕ) : ℕ :=
  ((sets.map fun chains => chains.getD chainId 0).min?).getD 0

/-- The greatest sequence number reached from any set. -/
def maxSeqNo (sets : List (Dict ℕ ℕ)) (chainId : ℕ) : ℕ :=
  ((sets.map fun chains => chains.getD chainId 0).max?).getD 0

/-- The events of a chain in a range of sequence numbers. -/
def fetchGap (chainId minNo maxNo : ℕ) : List ε := (T.eventAuthChains.entries.filter fun row =>
    row.2.1 = chainId ∧ minNo < row.2.2 ∧ row.2.2 ≤ maxNo).map (·.1)

/-- What one chain adds to the result. -/
def chainDifference (chainToEvent : Dict ChainPos ε) (sets : List (Dict ℕ ℕ)) (chainId : ℕ) : List ε :=
  let minNo := minSeqNo sets chainId
  let maxNo := maxSeqNo sets chainId
  if minNo < maxNo then
    let (eventIds, gap) := fillGap chainToEvent chainId (range' (minNo + 1) (maxNo - minNo))
    if gap then eventIds ++ fetchGap T chainId minNo maxNo else eventIds
  else []

/-- The part of the function that uses the index, for state sets of indexed events. -/
def coverDifference (info : ChainInfo ε) (stateSets : List (List ε)) (result : List ε) :
    Except CoverIndexError (List ε) := do
  let sets ← stateSets.mapM (setToChain info.chainInfo)
  let (sets, seenChains) := followLinks T info.seenChains sets
  return result ++ seenChains.flatMap (chainDifference T info.chainToEvent sets)

/-- The auth events of an event, each with whether it has a chain: `event_auth` joined with
`event_auth_chains`.  An event without auth events gives one row without an auth ID. -/
def joinAuth (eventId : ε) : List (Option (ε × Bool)) :=
  match T.eventAuth.filter fun row => row.1 = eventId with
  | [] => [none]
  | row :: rows => (row :: rows).map fun r => some (r.2, decide (r.2 ∈ T.eventAuthChains))

/-- The rows of `event_auth_chain_to_calculate` for the room, joined with these. -/
def toCalculateRows [DecidableEq ρ] (T : Tables ε ρ τ) (roomId : ρ) : List (ε × Option (ε × Bool)) :=
  (T.eventAuthChainToCalculate.entries.filter fun tc => tc.2.1 = roomId).flatMap fun tc =>
    (joinAuth T tc.1).map fun o => (tc.1, o)

/-- The loop body for one of these rows. -/
def readRow (acc : Dict ε (List ε) × List ε) (row : ε × Option (ε × Bool)) : Dict ε (List ε) × List ε :=
  let s := acc.1.getD row.1 []
  match row.2 with
  | none => (acc.1.insert row.1 s, acc.2)
  | some (authId, authIdHasChain) =>
    (acc.1.insert row.1 (s.insert authId), if authIdHasChain then acc.2.insert authId else acc.2)

/-- The loop over these rows: `event_to_auth_ids` and `events_that_have_chain_index`. -/
def readToCalculate (rows : List (ε × Option (ε × Bool))) (haveChainIndex : List ε) :
    Dict ε (List ε) × List ε := rows.foldl readRow (∅, haveChainIndex)

/-- The `while processing` loop. -/
def partialAuthChain (eventToAuthIds : Dict ε (List ε)) : ℕ → List ε → List ε → Option (List ε)
  | _, [], toAdd => some toAdd
  | 0, _ :: _, _ => none
  | fuel + 1, authId :: processing, toAdd =>
    let toAdd := toAdd.insert authId
    match eventToAuthIds.lookup authId with
    | none => partialAuthChain eventToAuthIds fuel processing toAdd
    | some subAuthIds =>
      partialAuthChain eventToAuthIds fuel (subAuthIds.filter (· ∉ toAdd) ∪ processing) toAdd

/-- `event_id_to_partial_auth_chain`, for the events that are in some state set. -/
def partialAuthChains (eventToAuthIds : Dict ε (List ε)) (fuel : ℕ) (stateSets : List (List ε)) :
    Except CoverIndexError (List (ε × List ε)) :=
  (eventToAuthIds.entries.filter fun entry => stateSets.any (entry.1 ∈ ·)).mapM fun entry =>
    match partialAuthChain eventToAuthIds fuel entry.2.dedup [] with
    | none => .error .fuel
    | some authChain => .ok (entry.1, authChain)

/-- Moves the events of a partial auth chain into the state set or the un-indexed state set. -/
def addAuthChain (haveChainIndex authChain : List ε) (sets : List ε × List ε) : List ε × List ε :=
  authChain.foldl (fun acc authId =>
    if authId ∈ haveChainIndex then (acc.1.insert authId, acc.2) else (acc.1, acc.2.insert authId))
    sets

/-- The loop body that rewrites a state set for one un-indexed event. -/
def rewriteEvent (haveChainIndex : List ε) (sets : List ε × List ε) (entry : ε × List ε) :
    List ε × List ε :=
  if entry.1 ∈ sets.1 then
    addAuthChain haveChainIndex entry.2
      (sets.1.filter fun x => x ≠ entry.1 ∧ x ∉ entry.2, sets.2.insert entry.1)
  else sets

/-- A state set rewritten to indexed events only, and its un-indexed part. -/
def fixupStateSet (chains : List (ε × List ε)) (haveChainIndex stateSet : List ε) : List ε × List ε :=
  chains.foldl (rewriteEvent haveChainIndex) (stateSet, [])

/-- `union - intersection`, over a list of sets that is not empty. -/
def unionMinusIntersection (sets : List (List ε)) : List ε :=
  sets.flatten.dedup.filter fun x => ¬ ∀ S ∈ sets, x ∈ S

/-- `_fixup_auth_chain_difference_sets`; the rewritten state sets are returned as well. -/
def fixupAuthChainDifferenceSets [DecidableEq ρ] (T : Tables ε ρ τ) (roomId : ρ) (fuel : ℕ)
    (stateSets : List (List ε)) (eventsMissingChainInfo haveChainIndex : List ε) :
    Except CoverIndexError (List ε × List (List ε)) :=
  let (eventToAuthIds, haveChainIndex) :=
    readToCalculate (toCalculateRows T roomId) haveChainIndex
  if eventsMissingChainInfo.any (· ∉ eventToAuthIds) then .error .noChainCoverIndex
  else do
    let chains ← partialAuthChains eventToAuthIds fuel stateSets
    let sets := stateSets.map (fixupStateSet chains haveChainIndex)
    return (unionMinusIntersection (sets.map (·.2)), sets.map (·.1))

/-- `_get_auth_chain_difference_using_cover_index_txn`. -/
def getAuthChainDifferenceUsingCoverIndexTxn [DecidableEq ρ] (T : Tables ε ρ τ) (roomId : ρ)
    (fuel : ℕ) (stateSets : List (List ε)) : Except CoverIndexError (List ε) :=
  let initialEvents := stateSets.flatten.dedup
  let info := fetchChainInfo T .empty initialEvents
  let eventsMissingChainInfo := initialEvents.filter (· ∉ info.chainInfo)
  if stateSets = [] then .error .indexError
  else if eventsMissingChainInfo = [] then coverDifference T info stateSets []
  else do
    let (result, stateSets) ← fixupAuthChainDifferenceSets T roomId fuel stateSets
      eventsMissingChainInfo info.chainInfo.keys
    let newEventsToFetch := stateSets.flatten.dedup.filter (· ∉ initialEvents)
    coverDifference T (fetchChainInfo T info newEventsToFetch) stateSets result

/-! ## What a chain cover is -/

/-- The index `event_auth_chains`, `event_auth_chain_links` is a chain cover of the indexed events:
every event has its own place, places in a chain are numbered from one, links join places of
events, and together they say exactly what is in the auth chain of what. -/
structure ChainCover (T : Tables ε ρ τ) : Prop where
  pos : ∀ {e c s}, T.place e = some (c, s) → 0 < s
  inj : ∀ {e e' p}, T.place e = some p → T.place e' = some p → e = e'
  origin : ∀ {p q}, (p, q) ∈ T.eventAuthChainLinks → ∃ e, T.place e = some p
  target : ∀ {p q}, (p, q) ∈ T.eventAuthChainLinks → ∃ e, T.place e = some q
  exact : ∀ {a b ca sa cb sb}, T.place a = some (ca, sa) →
    T.place b = some (cb, sb) → (TransGen T.Auth a b ↔ (ca = cb ∧ sb < sa) ∨
        ∃ s₁ s₂, ((ca, s₁), (cb, s₂)) ∈ T.eventAuthChainLinks ∧ s₁ ≤ sa ∧ sb ≤ s₂)

/-! ## Fetching -/

section
variable {T : Tables ε ρ τ} {info : ChainInfo ε}

/-- What has been fetched is in the index, under its place and with its chain noted. -/
structure ChainInfo.Sound (T : Tables ε ρ τ) (info : ChainInfo ε) : Prop where
  chainInfo : ∀ {e p}, info.chainInfo.lookup e = some p → T.place e = some p
  chainToEvent : ∀ {e p}, info.chainToEvent.lookup p = some e → T.place e = some p
  seen : ∀ {e c s}, info.chainInfo.lookup e = some (c, s) → c ∈ info.seenChains

theorem ChainInfo.sound_empty : (ChainInfo.empty : ChainInfo ε).Sound T where
  chainInfo h := absurd h (by simp [ChainInfo.empty])
  chainToEvent h := absurd h (by simp [ChainInfo.empty])
  seen h := absurd h (by simp [ChainInfo.empty])

theorem ChainInfo.Sound.addRow (h : info.Sound T) {row : Sigma fun _ : ε => ChainPos}
    (hrow : T.place row.1 = some row.2) : (info.addRow row).Sound T where
  chainInfo := by
    intro e p he
    rcases lookup_insert_cases he with ⟨rfl, rfl⟩ | ⟨_, he⟩
    · exact hrow
    · exact h.chainInfo he
  chainToEvent := by
    intro e p he
    rcases lookup_insert_cases he with ⟨rfl, rfl⟩ | ⟨_, he⟩
    · exact hrow
    · exact h.chainToEvent he
  seen := by
    intro e c s he
    refine mem_insert_iff.mpr ?_
    rcases lookup_insert_cases he with ⟨rfl, heq⟩ | ⟨_, he⟩
    · exact .inl (congrArg Prod.fst heq)
    · exact .inr (h.seen he)

/-- Fetching rows of the index makes exactly their events known. -/
theorem ChainInfo.Sound.foldl_addRow (rows : List (Sigma fun _ : ε => ChainPos))
    (hrows : ∀ row ∈ rows, T.place row.1 = some row.2) (h : info.Sound T) :
    (rows.foldl ChainInfo.addRow info).Sound T ∧ ∀ e, e ∈ (rows.foldl ChainInfo.addRow info).chainInfo ↔
        e ∈ info.chainInfo ∨ ∃ row ∈ rows, row.1 = e := by
  induction rows generalizing info with
  | nil => exact ⟨h, by simp⟩
  | cons row rows ih =>
    have h₁ := h.addRow (hrows row mem_cons_self)
    obtain ⟨hsound, hmem⟩ := ih (fun r hr => hrows r (mem_cons_of_mem _ hr)) h₁
    refine ⟨hsound, fun e => ?_⟩
    rw [foldl_cons, hmem, exists_mem_cons_iff, ← or_assoc]
    refine or_congr_left ((mem_insert _).trans ?_)
    rw [or_comm, eq_comm]

theorem fetchChainInfo_spec (h : info.Sound T) (eventsToFetch : List ε) :
    (fetchChainInfo T info eventsToFetch).Sound T ∧
      ∀ e, e ∈ (fetchChainInfo T info eventsToFetch).chainInfo ↔
        e ∈ info.chainInfo ∨ e ∈ T.eventAuthChains ∧ e ∈ eventsToFetch := by
  have hrows : ∀ row ∈ T.eventAuthChains.entries.filter (fun row => row.1 ∈ eventsToFetch),
      T.place row.1 = some row.2 :=
    fun row hrow => mem_lookup_iff.mpr (mem_filter.mp hrow).1
  obtain ⟨hsound, hmem⟩ := h.foldl_addRow _ hrows
  refine ⟨hsound, fun e => (hmem e).trans (or_congr_right ⟨?_, ?_⟩)⟩
  · rintro ⟨row, hrow, rfl⟩
    rw [mem_filter, decide_eq_true_eq] at hrow
    exact ⟨mem_keys.mpr (mem_map_of_mem hrow.1), hrow.2⟩
  · rintro ⟨he, hfetch⟩
    obtain ⟨p, hp⟩ := exists_lookup he
    exact ⟨⟨e, p⟩, mem_filter.mpr ⟨mem_lookup_iff.mp hp, by simpa using hfetch⟩, rfl⟩

end

/-! ## The reach of a state set in each chain -/

section
variable {T : Tables ε ρ τ} {S : List ε} {chains : Dict ℕ ℕ}

/-- Every number in `chains` is the place of an event that the state set reaches. -/
def ReachedPlaces (T : Tables ε ρ τ) (S : List ε) (chains : Dict ℕ ℕ) : Prop :=
  ∀ c m, chains.lookup c = some m → ∃ e, T.place e = some (c, m) ∧ Reaches T.Auth S e

/-- `chains[c] = max(s, chains.get(c, 0))` never lowers an entry. -/
theorem getD_le_getD_insert_max (chains : Dict ℕ ℕ) (c s d : ℕ) :
    chains.getD d 0 ≤ getD (chains.insert c (max s (chains.getD c 0))) d 0 := by
  rw [getD_insert]
  split
  next hd =>
    subst hd
    exact le_max_right _ _
  · exact le_rfl

theorem ReachedPlaces.insert_max (h : ReachedPlaces T S chains) {e : ε} {c s : ℕ}
    (he : T.place e = some (c, s)) (hr : Reaches T.Auth S e) :
    ReachedPlaces T S (chains.insert c (max s (chains.getD c 0))) := by
  intro d m hd
  rcases lookup_insert_cases hd with ⟨rfl, rfl⟩ | ⟨_, hd⟩
  · -- the entry is the new place or the one that was there
    rcases Nat.lt_or_ge s (chains.getD d 0) with hlt | hle
    · rw [max_eq_right hlt.le]
      exact h d _ (lookup_of_lt_getD hlt)
    · rw [max_eq_left hle]
      exact ⟨e, he, hr⟩
  · exact h d m hd

section
variable {chainInfo : Dict ε ChainPos}
  (hsound : ∀ {e p}, chainInfo.lookup e = some p → T.place e = some p)
include hsound

/-- The chains of the state events themselves. -/
theorem setToChain_spec (hS : ∀ e ∈ S, e ∈ chainInfo) :
    ∃ chains, setToChain chainInfo S = .ok chains ∧ ReachedPlaces T S chains ∧
      (∀ {c m}, chains.lookup c = some m → ∃ e s, chainInfo.lookup e = some (c, s)) ∧
      ∀ {e c s}, e ∈ S → chainInfo.lookup e = some (c, s) → s ≤ chains.getD c 0 := by
  have hloop := foldlM_ok_inv (f := addStateEvent chainInfo)
    (I := fun done chains => ReachedPlaces T S chains ∧
      (∀ c m, chains.lookup c = some m → ∃ e s, chainInfo.lookup e = some (c, s)) ∧
      ∀ e ∈ done, ∀ c s, chainInfo.lookup e = some (c, s) → s ≤ chains.getD c 0) S
    (fun done x rest chains hdone ⟨hreach, hkeys, hle⟩ => ?_) (s := ∅)
    ⟨fun _ _ h => absurd h (by simp), fun _ _ h => absurd h (by simp), by simp⟩
  · obtain ⟨chains, hrun, hreach, hkeys, hle⟩ := hloop
    exact ⟨chains, hrun, hreach, hkeys _ _, fun he => hle _ he _ _⟩
  have hxS : x ∈ S := by simp [hdone]
  obtain ⟨⟨c, s⟩, hx⟩ := exists_lookup (hS x hxS)
  refine ⟨_, by rw [addStateEvent, hx], hreach.insert_max (hsound hx) (.of_mem hxS), ?_, ?_⟩
  · intro d m hd
    rcases lookup_insert_cases hd with ⟨rfl, _⟩ | ⟨_, hd⟩
    · exact ⟨x, s, hx⟩
    · exact hkeys d m hd
  · intro e he d t hlook
    rcases mem_append.mp he with he | he
    · exact (hle e he d t hlook).trans (getD_le_getD_insert_max chains c s d)
    · obtain rfl := mem_singleton.mp he
      obtain ⟨rfl, rfl⟩ : c = d ∧ s = t := by simpa [hx] using hlook
      rw [getD_of_lookup (lookup_insert chains)]
      exact le_max_left _ _

end

/-- Following a link leads from places the state set reaches to such places. -/
theorem linkChains_reached (hT : ChainCover T) {row : ChainPos × ChainPos}
    (hrow : row ∈ T.eventAuthChainLinks) (h : ReachedPlaces T S chains) :
    ReachedPlaces T S (linkChains row chains) := by
  obtain ⟨⟨c, s₁⟩, d, s₂⟩ := row
  unfold linkChains
  split
  next hle =>
    obtain ⟨o, ho⟩ := hT.origin hrow
    obtain ⟨t, ht⟩ := hT.target hrow
    obtain ⟨x, hx, hr⟩ := h c _ (lookup_of_lt_getD ((hT.pos ho).trans_le hle))
    have hxt : TransGen T.Auth x t := (hT.exact hx ht).mpr (.inr ⟨s₁, s₂, hrow, hle, le_rfl⟩)
    exact h.insert_max ht (hr.trans hxt.to_reflTransGen)
  · exact h

theorem getD_le_getD_linkChains (row : ChainPos × ChainPos) (chains : Dict ℕ ℕ) (d : ℕ) :
    chains.getD d 0 ≤ (linkChains row chains).getD d 0 := by
  unfold linkChains
  split
  · exact getD_le_getD_insert_max chains _ _ d
  · exact le_rfl

/-- The rows of `event_auth_chain_links`, one after the other, on the chains of one state set. -/
theorem foldl_linkChains_spec (hT : ChainCover T) (rows : List (ChainPos × ChainPos))
    (hrows : ∀ row ∈ rows, row ∈ T.eventAuthChainLinks) (h : ReachedPlaces T S chains) :
    ReachedPlaces T S (rows.foldl (fun ch row => linkChains row ch) chains) ∧
      (∀ d, chains.getD d 0 ≤ (rows.foldl (fun ch row => linkChains row ch) chains).getD d 0) ∧
      (∀ {c m}, (rows.foldl (fun ch row => linkChains row ch) chains).lookup c = some m →
        (∃ m', chains.lookup c = some m') ∨ ∃ row ∈ rows, row.2.1 = c) ∧
      ∀ row ∈ rows, row.1.2 ≤ chains.getD row.1.1 0 →
        row.2.2 ≤ (rows.foldl (fun ch row => linkChains row ch) chains).getD row.2.1 0 := by
  induction rows generalizing chains with
  | nil =>
    exact ⟨h, fun _ => le_rfl, fun hc => .inl ⟨_, hc⟩, nofun⟩
  | cons row rows ih =>
    obtain ⟨hreach, hmono, hkeys, hle⟩ := ih (fun r hr => hrows r (mem_cons_of_mem _ hr))
      (linkChains_reached hT (hrows row mem_cons_self) h)
    refine ⟨hreach, fun d => (getD_le_getD_linkChains row chains d).trans (hmono d), ?_, ?_⟩
    · intro c m hc
      rcases hkeys hc with ⟨m', hm'⟩ | ⟨r, hr, hrc⟩
      · unfold linkChains at hm'
        split at hm'
        · rcases lookup_insert_cases hm' with ⟨rfl, _⟩ | ⟨_, hm'⟩
          · exact .inr ⟨row, mem_cons_self, rfl⟩
          · exact .inl ⟨m', hm'⟩
        · exact .inl ⟨m', hm'⟩
      · exact .inr ⟨r, mem_cons_of_mem _ hr, hrc⟩
    · intro r hr hrle
      rcases mem_cons.mp hr with rfl | hr
      · refine le_trans ?_ (hmono r.2.1)
        rw [linkChains, if_pos hrle, getD_of_lookup (lookup_insert chains)]
        exact le_max_left _ _
      · exact hle r hr (hrle.trans (getD_le_getD_linkChains row chains r.1.1))

/-- What the loop over the links does to the chains of one state set. -/
def extendChains (T : Tables ε ρ τ) (seenChains : List ℕ) (chains : Dict ℕ ℕ) : Dict ℕ ℕ :=
  (T.eventAuthChainLinks.filter fun row => row.1.1 ∈ seenChains).foldl
    (fun ch row => linkChains row ch) chains

/-- A chain seen before the loop over the links, or one that a link of such a chain leads to. -/
def LinkedTo (T : Tables ε ρ τ) (seenChains : List ℕ) (c : ℕ) : Prop := c ∈ seenChains ∨
    ∃ row ∈ T.eventAuthChainLinks.filter (fun row => row.1.1 ∈ seenChains), row.2.1 = c

omit [DecidableEq ε] in
/-- `followLinks` treats the state sets independently, and notes every chain a link leads to. -/
theorem followLinks_eq : (followLinks T seenChains sets).1 = sets.map (extendChains T seenChains) ∧
      ∀ c, c ∈ (followLinks T seenChains sets).2 ↔ LinkedTo T seenChains c := by
  unfold followLinks extendChains LinkedTo
  generalize T.eventAuthChainLinks.filter (fun row => row.1.1 ∈ seenChains) = rows
  generalize seenChains = seen
  induction rows generalizing sets seen with
  | nil => exact ⟨by simp, by simp⟩
  | cons row rows ih =>
    obtain ⟨hsets, hseen⟩ := ih (sets.map (linkChains row)) (seen.insert row.2.1)
    refine ⟨?_, fun c => ?_⟩
    · rw [foldl_cons, hsets, List.map_map]
      rfl
    · rw [foldl_cons, hseen, mem_insert_iff, exists_mem_cons_iff, ← or_assoc,
        eq_comm, or_comm (a := c ∈ seen)]

/-- `chains` says how far a state set reaches in every chain, and has entries for linked chains
only. -/
structure ReachIn (T : Tables ε ρ τ) (seenChains : List ℕ) (S : List ε) (chains : Dict ℕ ℕ) : Prop where
  reaches : ∀ {e c s}, T.place e = some (c, s) → (Reaches T.Auth S e ↔ s ≤ chains.getD c 0)
  linked : ∀ {c}, 0 < chains.getD c 0 → LinkedTo T seenChains c

/-- **Reach by chains.**  After the loop over the links, a state set of fetched events reaches an
indexed event exactly if the event is not beyond the set's number for its chain. -/
theorem reachIn_extendChains (hT : ChainCover T) {info : ChainInfo ε} (hinfo : info.Sound T)
    (hS : ∀ e ∈ S, e ∈ info.chainInfo) : ∃ chains, setToChain info.chainInfo S = .ok chains ∧
      ReachIn T info.seenChains S (extendChains T info.seenChains chains) := by
  obtain ⟨chains, hrun, hreach, hkeys, hown⟩ := setToChain_spec hinfo.chainInfo hS
  let rows := T.eventAuthChainLinks.filter fun row => row.1.1 ∈ info.seenChains
  have hrows : ∀ row ∈ rows, row ∈ T.eventAuthChainLinks := fun row hrow =>
    (mem_filter.mp hrow).1
  obtain ⟨hreach', hmono, hkeys', hlinks⟩ := foldl_linkChains_spec hT rows hrows hreach
  refine ⟨chains, hrun, ?_, ?_⟩
  · intro e c s he
    constructor
    · rintro ⟨x, hx, hxe⟩
      obtain ⟨⟨d, t⟩, hxinfo⟩ := exists_lookup (hS x hx)
      have hxT := hinfo.chainInfo hxinfo
      have hle : t ≤ chains.getD d 0 := hown hx hxinfo
      rcases reflTransGen_iff_eq_or_transGen.mp hxe with rfl | hxe
      · obtain ⟨rfl, rfl⟩ : c = d ∧ s = t := by simpa [he] using hxT
        exact hle.trans (hmono c)
      · rcases (hT.exact hxT he).mp hxe with ⟨rfl, hlt⟩ | ⟨s₁, s₂, hlink, hs₁, hs₂⟩
        · exact hlt.le.trans (hle.trans (hmono d))
        · have hrow : ((d, s₁), (c, s₂)) ∈ rows := by
            rw [mem_filter, decide_eq_true_eq]
            exact ⟨hlink, hinfo.seen hxinfo⟩
          exact hs₂.trans (hlinks _ hrow (hs₁.trans hle))
    · intro hle
      obtain ⟨x, hx, hr⟩ := hreach' c _ (lookup_of_lt_getD ((hT.pos he).trans_le hle))
      rcases hle.lt_or_eq with hlt | rfl
      · exact hr.trans ((hT.exact hx he).mpr (.inl ⟨rfl, hlt⟩)).to_reflTransGen
      · rwa [hT.inj he hx]
  · intro c hpos
    rcases hkeys' (lookup_of_lt_getD hpos) with ⟨m', hm'⟩ | hrow
    · obtain ⟨e, s, he⟩ := hkeys hm'
      exact .inl (hinfo.seen he)
    · exact .inr hrow

end

/-! ## The difference chain by chain -/

section
variable {T : Tables ε ρ τ} {sets : List (Dict ℕ ℕ)} {chainToEvent : Dict ChainPos ε} {c s : ℕ}
  {e : ε}

theorem minSeqNo_lt_iff (hsets : sets ≠ []) :
    minSeqNo sets c < s ↔ ∃ chains ∈ sets, chains.getD c 0 < s := by
  unfold minSeqNo
  obtain ⟨m, hmem, hmin, hle⟩ := exists_min? (l := sets.map fun chains => chains.getD c 0)
    (mt map_eq_nil_iff.mp hsets)
  rw [hmin]
  constructor
  · intro hlt
    obtain ⟨chains, hchains, rfl⟩ := mem_map.mp hmem
    exact ⟨chains, hchains, hlt⟩
  · rintro ⟨chains, hchains, hlt⟩
    exact (hle _ (mem_map_of_mem hchains)).trans_lt hlt

theorem le_maxSeqNo_iff (hsets : sets ≠ []) :
    s ≤ maxSeqNo sets c ↔ ∃ chains ∈ sets, s ≤ chains.getD c 0 := by
  unfold maxSeqNo
  obtain ⟨m, hmem, hmax, hle⟩ := exists_max? (l := sets.map fun chains => chains.getD c 0)
    (mt map_eq_nil_iff.mp hsets)
  rw [hmax]
  constructor
  · intro hlt
    obtain ⟨chains, hchains, rfl⟩ := mem_map.mp hmem
    exact ⟨chains, hchains, hlt⟩
  · rintro ⟨chains, hchains, hlt⟩
    exact hlt.trans (hle _ (mem_map_of_mem hchains))

/-- What `fillGap` finds is in the range, and if it met no hole it found all of it. -/
theorem fillGap_spec (hT : ChainCover T)
    (hsound : ∀ {e p}, chainToEvent.lookup p = some e → T.place e = some p)
    (seqNos : List ℕ) : (∀ e ∈ (fillGap chainToEvent c seqNos).1,
        ∃ s ∈ seqNos, T.place e = some (c, s)) ∧
      ((fillGap chainToEvent c seqNos).2 = false →
        ∀ s ∈ seqNos, ∀ e, T.place e = some (c, s) → e ∈ (fillGap chainToEvent c seqNos).1) := by
  induction seqNos with
  | nil => exact ⟨by simp [fillGap], by simp⟩
  | cons t seqNos ih =>
    unfold fillGap
    cases hlook : chainToEvent.lookup (c, t) with
    | none => exact ⟨by simp, by simp⟩
    | some x =>
      refine ⟨?_, ?_⟩
      · intro e he
        rcases mem_cons.mp he with rfl | he
        · exact ⟨t, mem_cons_self, hsound hlook⟩
        · obtain ⟨s, hs, hlook'⟩ := ih.1 e he
          exact ⟨s, mem_cons_of_mem _ hs, hlook'⟩
      · intro hgap s hs e he
        rcases mem_cons.mp hs with rfl | hs
        · rw [hT.inj he (hsound hlook)]
          exact mem_cons_self
        · exact mem_cons_of_mem _ (ih.2 hgap s hs e he)

omit [DecidableEq ε] in
theorem mem_fetchGap {minNo maxNo : ℕ} : e ∈ fetchGap T c minNo maxNo ↔
      ∃ s, ⟨e, (c, s)⟩ ∈ T.eventAuthChains.entries ∧ minNo < s ∧ s ≤ maxNo := by
  simp only [fetchGap, mem_map, mem_filter, decide_eq_true_eq]
  constructor
  · rintro ⟨⟨x, d, s⟩, ⟨hmem, rfl, hmin, hmax⟩, rfl⟩
    exact ⟨s, hmem, hmin, hmax⟩
  · rintro ⟨s, hmem, hmin, hmax⟩
    exact ⟨⟨e, (c, s)⟩, ⟨hmem, rfl, hmin, hmax⟩, rfl⟩

/-- A chain adds its events between the two bounds, wherever they are taken from. -/
theorem mem_chainDifference (hT : ChainCover T)
    (hsound : ∀ {e p}, chainToEvent.lookup p = some e → T.place e = some p) :
    e ∈ chainDifference T chainToEvent sets c ↔
      ∃ s, T.place e = some (c, s) ∧ minSeqNo sets c < s ∧ s ≤ maxSeqNo sets c := by
  have hfetch : e ∈ fetchGap T c (minSeqNo sets c) (maxSeqNo sets c) ↔
      ∃ s, T.place e = some (c, s) ∧ minSeqNo sets c < s ∧ s ≤ maxSeqNo sets c := by
    rw [mem_fetchGap]
    exact exists_congr fun s => and_congr_left fun _ => mem_lookup_iff.symm
  have hrange : ∀ s, s ∈ range' (minSeqNo sets c + 1) (maxSeqNo sets c - minSeqNo sets c) ↔
      minSeqNo sets c < s ∧ s ≤ maxSeqNo sets c := by
    intro s
    rw [mem_range'_1]
    omega
  obtain ⟨hfound, hall⟩ := fillGap_spec hT hsound
    (range' (minSeqNo sets c + 1) (maxSeqNo sets c - minSeqNo sets c))
  have hfound' : e ∈ (fillGap chainToEvent c (range' (minSeqNo sets c + 1)
      (maxSeqNo sets c - minSeqNo sets c))).1 →
      ∃ s, T.place e = some (c, s) ∧ minSeqNo sets c < s ∧ s ≤ maxSeqNo sets c := by
    intro he
    obtain ⟨s, hs, hlook⟩ := hfound e he
    exact ⟨s, hlook, (hrange s).mp hs⟩
  unfold chainDifference
  by_cases hlt : minSeqNo sets c < maxSeqNo sets c
  · simp only [if_pos hlt]
    split
    · rw [mem_append, hfetch]
      exact or_iff_right_of_imp hfound'
    next hgap =>
      refine ⟨hfound', ?_⟩
      rintro ⟨s, hlook, hs⟩
      exact hall (Bool.not_eq_true _ ▸ hgap) s ((hrange s).mpr hs) e hlook
  · simp only [if_neg hlt]
    refine ⟨fun h => absurd h not_mem_nil, ?_⟩
    rintro ⟨s, _, hmin, hmax⟩
    omega

/-- **Indexed state sets.**  On state sets whose events have all been fetched, the index adds the
indexed part of the auth chain difference to the result. -/
theorem coverDifference_spec (hT : ChainCover T) {info : ChainInfo ε} (hinfo : info.Sound T)
    {stateSets : List (List ε)} (hsets : stateSets ≠ [])
    (hS : ∀ S ∈ stateSets, ∀ e ∈ S, e ∈ info.chainInfo) (result : List ε) :
    ∃ out, coverDifference T info stateSets result = .ok out ∧ ∀ e, e ∈ out ↔ e ∈ result ∨
        e ∈ T.eventAuthChains ∧ T.AuthChainDifference stateSets e := by
  obtain ⟨start, hrun, hstart⟩ := mapM_ok_of_forall stateSets
    fun S hmem => reachIn_extendChains hT hinfo (hS S hmem)
  let sets := start.map (extendChains T info.seenChains)
  let seen := (followLinks T info.seenChains start).2
  have hfollow : followLinks T info.seenChains start = (sets, seen) :=
    Prod.ext (followLinks_eq info.seenChains start).1 rfl
  have hreach : List.Forall₂ (ReachIn T info.seenChains) stateSets sets :=
    forall₂_map_right_iff.mpr hstart
  have hne : sets ≠ [] := by
    rintro hnil
    rw [hnil, forall₂_nil_right_iff] at hreach
    exact hsets hreach
  refine ⟨result ++ seen.flatMap (chainDifference T info.chainToEvent sets), ?_, fun e => ?_⟩
  · simp only [coverDifference, hrun, bind, Except.bind, hfollow]
    rfl
  -- the two halves of "some but not all", in terms of the chains
  have hsome : ∀ {c s}, T.place e = some (c, s) →
      ((∃ S ∈ stateSets, Reaches T.Auth S e) ↔ s ≤ maxSeqNo sets c) := by
    intro c s he
    rw [le_maxSeqNo_iff hne]
    exact exists_mem_iff_of_forall₂ hreach fun S chains h => h.reaches he
  have hnot : ∀ {c s}, T.place e = some (c, s) →
      ((∃ S ∈ stateSets, ¬ Reaches T.Auth S e) ↔ minSeqNo sets c < s) := by
    intro c s he
    rw [minSeqNo_lt_iff hne]
    refine exists_mem_iff_of_forall₂ hreach fun S chains h => ?_
    rw [h.reaches he, Nat.not_le]
  rw [mem_append, mem_flatMap]
  refine or_congr_right ⟨?_, ?_⟩
  · rintro ⟨c, _, hmem⟩
    obtain ⟨s, he, hmin, hmax⟩ := (mem_chainDifference hT hinfo.chainToEvent).mp hmem
    exact ⟨mem_of_lookup he, (hsome he).mpr hmax, (hnot he).mpr hmin⟩
  · rintro ⟨hindexed, hin, hout⟩
    obtain ⟨⟨c, s⟩, he⟩ := exists_lookup hindexed
    refine ⟨c, ?_, (mem_chainDifference hT hinfo.chainToEvent).mpr
      ⟨s, he, (hnot he).mp hout, (hsome he).mp hin⟩⟩
    obtain ⟨chains, hchains, hle⟩ := (le_maxSeqNo_iff hne).mp ((hsome he).mp hin)
    obtain ⟨S, _, hS⟩ := exists_left_of_forall₂ hreach hchains
    exact ((followLinks_eq info.seenChains start).2 c).mpr (hS.linked ((hT.pos he).trans_le hle))

end
end Synapse.Storage
