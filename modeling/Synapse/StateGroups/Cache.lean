import Synapse.Caches.DictionaryCache
import Synapse.State.StateFilter
import Synapse.Util.DeltaChain
import Mathlib.Data.List.Dedup

/-!
# Reading state groups through the caches

`StateGroupDataStore._get_state_for_groups` (`synapse/storage/databases/state/store.py`) looks the
groups up in two dictionary caches, one for the member events and one for all others.  The groups of
which something is missing are then read from the database, with a filter that is expanded so that
more can be put into the caches.

Between the lookup and the answer of the database the server does other things: other calls look up
and fill, `store_state_group` fills the caches with the state that it stores, and entries are
invalidated and evicted.  A `Server` is the two caches with the calls that wait for the database and
the results that were returned.  The result is exact in every run, because the state of a group never
changes: no entry is ever wrong about it, whenever it was written, and the sequence numbers, which
protect against entries that are out of date, have nothing to protect against.
-/

namespace Synapse.StateGroups

open Synapse.Util Synapse.State Synapse.Caches List Dict
open StateFilter (admits_memberFilter admits_nonMemberFilter lookup_filterState)

variable {ε : Type}

abbrev GroupStates (ε : Type) := Dict ℕ (StateMap ε)

abbrev StateCache (ε : Type) := DictionaryCache ℕ StateKey ε

structure StateCaches (ε : Type) where
  stateGroupCache : StateCache ε
  stateGroupMembersCache : StateCache ε

/-! ## The code -/

variable (f : StateFilter)

/-- What an entry of the cache has of the state that the filter wants, and whether this is all. -/
def fromCacheEntry (cacheEntry : DictionaryEntry StateKey ε) : StateMap ε × Bool :=
  let stateDictIds := cacheEntry.value
  if cacheEntry.full || f.isFull then (f.filterState stateDictIds, cacheEntry.full)
  else
    let missingTypes := f.hasWildcards ||
      f.concreteTypes.any fun key => key ∉ stateDictIds && key ∉ cacheEntry.knownAbsent
    (f.filterState stateDictIds, !missingTypes)

/-- `dict_keys` of `_get_state_for_group_using_cache`. -/
def requestedKeys : Option (List StateKey) :=
  if f.hasWildcards then none else some f.concreteTypes

/-- Also returns the cache after the lookup. -/
def getStateForGroupUsingCache (cache : StateCache ε) (group : ℕ) (f : StateFilter) :
    (StateMap ε × Bool) × StateCache ε :=
  let (cacheEntry, cache) := cache.get group (requestedKeys f)
  (fromCacheEntry f cacheEntry, cache)

/-- The variables of the loop of `_get_state_for_groups_using_cache`, and the cache. -/
structure UsingCache (ε : Type) where
  results : GroupStates ε
  incompleteGroups : List ℕ
  cache : StateCache ε

def UsingCache.lookUp (acc : UsingCache ε) (group : ℕ) : UsingCache ε :=
  let ((stateDictIds, gotAll), cache) := getStateForGroupUsingCache acc.cache group f
  { results := acc.results.insert group stateDictIds
    incompleteGroups := if gotAll then acc.incompleteGroups else acc.incompleteGroups ++ [group]
    cache := cache }

def getStateForGroupsUsingCache (groups : List ℕ) (cache : StateCache ε) (f : StateFilter) :
    UsingCache ε := groups.dedup.foldl (UsingCache.lookUp f) ⟨∅, [], cache⟩

/-- A call of `_get_state_for_groups` at the point where it asks the database, if it has to. -/
structure Lookup (ε : Type) where
  groups : List ℕ
  stateFilter : StateFilter
  state : GroupStates ε
  incompleteGroups : List ℕ
  cacheSequenceNm : ℕ
  cacheSequenceM : ℕ

/-- `db_state_filter`. -/
def Lookup.dbStateFilter (lookup : Lookup ε) : StateFilter := lookup.stateFilter.returnExpanded

/-- `state[group].update(member_state[group])`; all groups are in both dictionaries. -/
def addMembers (memberState state : GroupStates ε) (group : ℕ) :
    GroupStates ε :=
  state.insert group ((state.getD group ∅).update (memberState.getD group ∅).items)

variable (caches : StateCaches ε)

/-- `_get_state_for_groups` until it asks the database. -/
def StateCaches.lookUp (groups : List ℕ) (stateFilter : StateFilter) : Lookup ε × StateCaches ε :=
  let (memberFilter, nonMemberFilter) := stateFilter.getMemberSplit
  let nonMember := getStateForGroupsUsingCache groups caches.stateGroupCache nonMemberFilter
  let member := getStateForGroupsUsingCache groups caches.stateGroupMembersCache memberFilter
  ({ groups := groups
     stateFilter := stateFilter
     state := groups.foldl (addMembers member.results) nonMember.results
     incompleteGroups := (member.incompleteGroups ++ nonMember.incompleteGroups).dedup
     cacheSequenceNm := nonMember.cache.sequence
     cacheSequenceM := member.cache.sequence },
   ⟨nonMember.cache, member.cache⟩)

/-- `fetched_keys` of `_insert_into_cache`. -/
def fetchedTypes : Option (List StateKey) :=
  if f.isFull then none else some f.concreteTypes

/-- One turn of the loop of `_insert_into_cache`. -/
def StateCaches.insertGroup (stateFilter : StateFilter) (cacheSeqNumMembers cacheSeqNumNonMembers : ℕ)
    (caches : StateCaches ε) (item : ℕ × StateMap ε) : StateCaches ε :=
  let (memberFilter, nonMemberFilter) := stateFilter.getMemberSplit
  let (group, groupStateDict) := item
  { stateGroupMembersCache := caches.stateGroupMembersCache.update cacheSeqNumMembers group
      (groupStateDict.filterItems fun key _ => key.1 = .member) (fetchedTypes memberFilter)
    stateGroupCache := caches.stateGroupCache.update cacheSeqNumNonMembers group
      (groupStateDict.filterItems fun key _ => key.1 ≠ .member) (fetchedTypes nonMemberFilter) }

def StateCaches.insertIntoCache (groupToStateDict : GroupStates ε) (stateFilter : StateFilter)
    (cacheSeqNumMembers cacheSeqNumNonMembers : ℕ) : StateCaches ε :=
  groupToStateDict.items.foldl
    (StateCaches.insertGroup stateFilter cacheSeqNumMembers cacheSeqNumNonMembers) caches

/-- `_get_state_for_groups` after the database has answered. -/
def StateCaches.fill (lookup : Lookup ε) (groupToStateDict : GroupStates ε) :
    GroupStates ε × StateCaches ε :=
  (lookup.state.update (groupToStateDict.items.map fun (group, groupStateDict) =>
      (group, lookup.stateFilter.filterState groupStateDict)),
    caches.insertIntoCache groupToStateDict lookup.dbStateFilter lookup.cacheSequenceM
      lookup.cacheSequenceNm)

/-- `_get_state_for_groups` if nothing else happens while it waits; the walk may fail. -/
def StateCaches.getStateForGroups {χ : Type} (caches : StateCaches ε)
    (getStateGroupsFromGroups : List ℕ → StateFilter → Except χ (GroupStates ε))
    (groups : List ℕ) (stateFilter : StateFilter) : Except χ (GroupStates ε × StateCaches ε) :=
  let (lookup, caches) := caches.lookUp groups stateFilter
  if lookup.incompleteGroups.isEmpty then .ok (lookup.state, caches)
  else do
    let groupToStateDict ←
      getStateGroupsFromGroups lookup.incompleteGroups lookup.dbStateFilter
    .ok (caches.fill lookup groupToStateDict)

/-- What `insert_full_state_txn` of `store_state_group` puts into the caches after the transaction;
the sequence numbers are those that the caches had in it. -/
def StateCaches.prefill (sequenceM sequenceNm stateGroup : ℕ) (currentStateIds : StateMap ε) :
    StateCaches ε where
  stateGroupMembersCache := caches.stateGroupMembersCache.update sequenceM stateGroup
    (currentStateIds.filterItems fun key _ => key.1 = .member) none
  stateGroupCache := caches.stateGroupCache.update sequenceNm stateGroup
    (currentStateIds.filterItems fun key _ => key.1 ≠ .member) none

/-! ## The server -/

structure Returned (ε : Type) where
  groups : List ℕ
  stateFilter : StateFilter
  result : GroupStates ε

structure Server (ε : Type) where
  caches : StateCaches ε
  /-- The calls that wait for the database. -/
  waiting : List (Lookup ε)
  returned : List (Returned ε)

def Server.init : Server ε := ⟨⟨.empty, .empty⟩, [], []⟩

inductive Action (ε : Type) where
  /-- `_get_state_for_groups` is called. -/
  | call (groups : List ℕ) (stateFilter : StateFilter)
  /-- The database answers the call at this place of the waiting ones. -/
  | answer (place : ℕ) (groupToStateDict : GroupStates ε)
  /-- `store_state_group` has stored the full state of a group. -/
  | prefill (sequenceM sequenceNm stateGroup : ℕ) (currentStateIds : StateMap ε)
  | invalidate (members : Bool) (group : ℕ)
  | invalidateAll (members : Bool)
  | evict (members : Bool) (perKey : List (ℕ × StateKey)) (fullDict : List ℕ)

/-- Changes one of the two caches. -/
def StateCaches.modify (members : Bool) (change : StateCache ε → StateCache ε) : StateCaches ε :=
  if members then { caches with stateGroupMembersCache := change caches.stateGroupMembersCache }
  else { caches with stateGroupCache := change caches.stateGroupCache }

def Server.step (s : Server ε) : Action ε → Server ε
  | .call groups stateFilter =>
    let (lookup, caches) := s.caches.lookUp groups stateFilter
    if lookup.incompleteGroups.isEmpty then
      { s with caches := caches, returned := ⟨groups, stateFilter, lookup.state⟩ :: s.returned }
    else { s with caches := caches, waiting := lookup :: s.waiting }
  | .answer place groupToStateDict =>
    match s.waiting[place]? with
    | none => s
    | some lookup =>
      let (state, caches) := s.caches.fill lookup groupToStateDict
      { caches := caches
        waiting := s.waiting.eraseIdx place
        returned := ⟨lookup.groups, lookup.stateFilter, state⟩ :: s.returned }
  | .prefill sequenceM sequenceNm stateGroup currentStateIds =>
    { s with caches := s.caches.prefill sequenceM sequenceNm stateGroup currentStateIds }
  | .invalidate members group =>
    { s with caches := s.caches.modify members fun cache => cache.invalidate group }
  | .invalidateAll members =>
    { s with caches := s.caches.modify members DictionaryCache.invalidateAll }
  | .evict members perKey fullDict =>
    { s with caches := s.caches.modify members fun cache => cache.evict perKey fullDict }

/-- State groups that are stored as deltas from previous groups. -/
structure Forest (ε : Type) where
  prevGroup : ℕ → Option ℕ
  deltaIds : ℕ → StateMap ε
  prevGroup_lt : ∀ group prev, prevGroup group = some prev → 0 < prev ∧ prev < group

def Forest.state (forest : Forest ε) (group : ℕ) : StateMap ε :=
  chainState forest.prevGroup forest.deltaIds group

/-- The maps of `result` are the parts of the groups' states that the filter selects. -/
def Exact (state : ℕ → StateMap ε) (groups : List ℕ) (f : StateFilter)
    (result : GroupStates ε) : Prop :=
  ∀ group ∈ groups, ∃ stateDict, result.lookup group = some stateDict ∧
    ∀ key, stateDict.lookup key = (f.filterState (state group)).lookup key

/-- The database walk answers for the groups that it was asked for, with the part of the state that
the filter selects. -/
structure WalkAnswers (state : ℕ → StateMap ε) (groups : List ℕ) (f : StateFilter)
    (answer : GroupStates ε) : Prop where
  mem : ∀ group, group ∈ answer ↔ group ∈ groups
  lookup : ∀ group stateDict, answer.lookup group = some stateDict →
    ∀ key, stateDict.lookup key = (f.filterState (state group)).lookup key

/-- What the rest of the server may do: the database answers with what the groups hold, and
`store_state_group` fills the caches with what it stores. -/
def Action.Faithful (state : ℕ → StateMap ε) (s : Server ε) : Action ε → Prop
  | .answer place groupToStateDict => ∀ lookup, s.waiting[place]? = some lookup →
    WalkAnswers state lookup.incompleteGroups lookup.dbStateFilter groupToStateDict
  | .prefill _ _ stateGroup currentStateIds =>
    ∀ key, currentStateIds.lookup key = (state stateGroup).lookup key
  | _ => True

/-- The server after some actions. -/
inductive Run (state : ℕ → StateMap ε) : Server ε → Prop where
  | init : Run state Server.init
  | step {s : Server ε} (run : Run state s) (action : Action ε) (h : action.Faithful state s) :
    Run state (s.step action)

/-! ## One cache -/

section
variable {cache : StateCache ε} {group : ℕ} {f : StateFilter} {dict : StateKey → Option ε}

theorem agreesWith_getStateForGroupUsingCache (h : cache.AgreesWith group dict) (group' : ℕ)
    (f : StateFilter) : (getStateForGroupUsingCache cache group' f).2.AgreesWith group dict := h.get

theorem mem_of_requestedKeys {key : StateKey} (hadmits : f.admits key = true) (keys : List StateKey)
    (hkeys : requestedKeys f = some keys) : key ∈ keys := by
  obtain ⟨hwild, hkeys⟩ := Option.ite_none_left_eq_some.mp hkeys
  rw [← Option.some.inj hkeys]
  exact (StateFilter.admits_iff_mem_concreteTypes (Bool.eq_false_iff.mpr hwild)).mp hadmits

/-- If the entry says that it has all, it has all that the filter wants. -/
theorem lookup_fromCacheEntry {entry : DictionaryEntry StateKey ε}
    (h : DictionaryCache.Answers dict (requestedKeys f) entry)
    (hall : (fromCacheEntry f entry).2 = true) (key : StateKey) :
    (fromCacheEntry f entry).1.lookup key = if f.admits key then dict key else none := by
  have hvalue : f.admits key = true → entry.value.lookup key = dict key := by
    intro hadmits
    unfold fromCacheEntry at hall
    split at hall
    · exact h.full hall key (mem_of_requestedKeys hadmits)
    · -- every key that is asked for is there or known to be absent
      obtain ⟨hwild, hfound⟩ := Bool.or_eq_false_iff.mp ((Bool.not_eq_true' _).mp hall)
      have hmem := (StateFilter.admits_iff_mem_concreteTypes hwild).mp hadmits
      have hkey := any_eq_false.mp hfound key hmem
      cases hlookup : entry.value.lookup key with
      | some eventId => exact (h.sound key eventId hlookup).symm
      | none =>
        have habsent : key ∈ entry.knownAbsent := by
          by_contra hknown
          exact hkey (by simp [AList.lookup_eq_none.mp hlookup, hknown])
        exact (h.absent key habsent).symm
  have hfilter : (fromCacheEntry f entry).1 = f.filterState entry.value := by
    unfold fromCacheEntry
    split <;> rfl
  rw [hfilter, lookup_filterState]
  split
  next hadmits => exact hvalue hadmits
  · rfl

/-- What the loop over the groups has found. -/
structure UsingCache.Right (f : StateFilter) (dict : ℕ → StateKey → Option ε) (done : List ℕ)
    (acc : UsingCache ε) : Prop where
  found : ∀ group ∈ done, ∃ stateDict, acc.results.lookup group = some stateDict ∧
    (group ∉ acc.incompleteGroups →
      ∀ key, stateDict.lookup key = if f.admits key then dict group key else none)
  incomplete : ∀ group ∈ acc.incompleteGroups, group ∈ done

theorem agreesWith_getStateForGroupsUsingCache (h : cache.AgreesWith group dict) (groups : List ℕ)
    (f : StateFilter) : (getStateForGroupsUsingCache groups cache f).cache.AgreesWith group dict := by
  refine foldlRecOn (motive := fun acc : UsingCache ε => acc.cache.AgreesWith group dict)
    groups.dedup _ h fun acc hacc group' _ => ?_
  exact agreesWith_getStateForGroupUsingCache hacc group' f

variable {dict : ℕ → StateKey → Option ε}

theorem UsingCache.Right.lookUp {acc : UsingCache ε} {done : List ℕ}
    (h : acc.Right f dict done) {group : ℕ} (hcache : acc.cache.AgreesWith group (dict group)) :
    (acc.lookUp f group).Right f dict (done ++ [group]) := by
  have hentry := DictionaryCache.get_answers hcache (requestedKeys f)
  have hall := lookup_fromCacheEntry hentry
  unfold UsingCache.lookUp getStateForGroupUsingCache
  dsimp only
  generalize fromCacheEntry f _ = read at hall ⊢
  refine ⟨fun group' hmem => ?_, fun group' hmem => ?_⟩
  · by_cases heq : group' = group
    · subst heq
      refine ⟨read.1, AList.lookup_insert _, fun hcomplete => hall ?_⟩
      by_contra hgot
      rw [if_neg hgot] at hcomplete
      exact hcomplete mem_append_cons_self
    · rw [mem_append, mem_singleton] at hmem
      obtain ⟨stateDict, hlookup, hright⟩ := h.found group' (hmem.resolve_right heq)
      refine ⟨stateDict, (AList.lookup_insert_ne heq).trans hlookup, fun hcomplete => hright ?_⟩
      intro hincomplete
      refine hcomplete ?_
      split
      · exact hincomplete
      · exact mem_append_left _ hincomplete
  · split at hmem
    · exact mem_append_left _ (h.incomplete group' hmem)
    · rcases mem_append.mp hmem with hmem | hmem
      · exact mem_append_left _ (h.incomplete group' hmem)
      · exact mem_append_right _ hmem

theorem getStateForGroupsUsingCache_right {groups : List ℕ}
    (h : ∀ group ∈ groups, cache.AgreesWith group (dict group)) :
    (getStateForGroupsUsingCache groups cache f).Right f dict groups.dedup := by
  have hloop := foldl_inv (f := UsingCache.lookUp f) (s := ⟨∅, [], cache⟩)
    (I := fun done acc => UsingCache.Right f dict done acc ∧
      ∀ group ∈ groups, acc.cache.AgreesWith group (dict group)) groups.dedup ?_ ?_
  · exact hloop.1
  · intro done group rest acc heq hacc
    have hgroup : group ∈ groups := by
      rw [← mem_dedup, heq]
      exact mem_append_cons_self
    refine ⟨hacc.1.lookUp (hacc.2 group hgroup), fun group' hmem => ?_⟩
    exact agreesWith_getStateForGroupUsingCache (hacc.2 group' hmem) group f
  · exact ⟨⟨fun _ hmem => absurd hmem not_mem_nil, fun _ hmem => absurd hmem not_mem_nil⟩, h⟩

end

/-! ## Both caches -/

section
variable {caches : StateCaches ε} {group : ℕ} {stateDict : StateMap ε}

/-- The part of a state map with the keys that satisfy `p`. -/
def partOf (p : StateKey → Bool) (stateDict : StateMap ε) (key : StateKey) : Option ε :=
  if p key then stateDict.lookup key else none

/-- The keys of the members cache. -/
def isMember (key : StateKey) : Bool := key.1 = .member

/-- The keys of the other cache. -/
def isNonMember (key : StateKey) : Bool := key.1 ≠ .member

/-- What both caches hold about a group is right about its state. -/
structure StateCaches.AgreeWith (caches : StateCaches ε) (group : ℕ) (stateDict : StateMap ε) : Prop where
  nonMembers : caches.stateGroupCache.AgreesWith group (partOf isNonMember stateDict)
  members : caches.stateGroupMembersCache.AgreesWith group (partOf isMember stateDict)

theorem StateCaches.AgreeWith.lookUp (h : caches.AgreeWith group stateDict) (groups : List ℕ)
    (f : StateFilter) : (caches.lookUp groups f).2.AgreeWith group stateDict :=
  ⟨agreesWith_getStateForGroupsUsingCache h.nonMembers groups _,
    agreesWith_getStateForGroupsUsingCache h.members groups _⟩

/-- The loop that puts the member events to the others. -/
theorem lookup_foldl_addMembers {nonMember member : GroupStates ε} (groups : List ℕ) :
    ∀ group ∈ groups, ∃ stateDict,
      (groups.foldl (addMembers member) nonMember).lookup group = some stateDict ∧
      ∀ key, stateDict.lookup key =
        ((member.getD group ∅).lookup key).or ((nonMember.getD group ∅).lookup key) := by
  have hloop := foldl_inv (f := addMembers member) (s := nonMember) (I := fun done state => ∀ group,
      (∀ key, (state.getD group ∅).lookup key = if group ∈ done then
        ((member.getD group ∅).lookup key).or ((nonMember.getD group ∅).lookup key)
        else (nonMember.getD group ∅).lookup key) ∧ (group ∈ done → group ∈ state)) groups ?_ ?_
  · intro group hmem
    obtain ⟨hlookup, hstate⟩ := hloop group
    obtain ⟨stateDict, hdict⟩ := exists_lookup (hstate hmem)
    have hgetD : (groups.foldl (addMembers member) nonMember).getD group ∅ = stateDict :=
      getD_of_lookup hdict
    refine ⟨stateDict, hdict, fun key => ?_⟩
    rw [← hgetD, hlookup key, if_pos hmem]
  · intro done group rest state _ hstate group'
    obtain ⟨hlookup, hmem⟩ := hstate group'
    unfold addMembers
    rw [AList.mem_insert]
    by_cases heq : group' = group
    · subst heq
      refine ⟨fun key => ?_, fun _ => .inl rfl⟩
      rw [getD_insert, if_pos rfl, lookup_update_items, hlookup key, if_pos mem_append_cons_self]
      -- the member events may have been put there before
      split
      · rw [← Option.or_assoc, Option.or_self]
      · rfl
    · have hdone : group' ∈ done ++ [group] ↔ group' ∈ done := by simp [heq]
      refine ⟨fun key => ?_, fun h => .inr (hmem (hdone.mp h))⟩
      rw [getD_insert, if_neg heq, hlookup key]
      simp only [hdone]
  · exact fun group => ⟨fun key => (if_neg not_mem_nil).symm, fun h => absurd h not_mem_nil⟩

/-- What the two filters select of the two parts is what the filter selects of the state. -/
theorem lookup_filterState_parts (f : StateFilter) (stateDict : StateMap ε) (key : StateKey) :
    (if f.memberFilter.admits key then partOf isMember stateDict key else none).or
      (if f.nonMemberFilter.admits key then partOf isNonMember stateDict key else none) =
      (f.filterState stateDict).lookup key := by
  rw [lookup_filterState]
  by_cases hmember : key.1 = .member
  · rw [admits_memberFilter hmember]
    simp [partOf, isMember, isNonMember, hmember]
  · rw [admits_nonMemberFilter hmember]
    simp [partOf, isMember, isNonMember, hmember]

/-! ## Filling the caches -/

variable {key : StateKey} {groupStateDict : StateMap ε} {p : StateKey → Bool}

theorem lookup_filterItems_part :
    (groupStateDict.filterItems fun key _ => p key).lookup key = partOf p groupStateDict key := by
  rw [lookup_filterItems]
  unfold partOf
  cases p key <;> cases groupStateDict.lookup key <;> rfl

variable {f : StateFilter}

/-- What `_insert_into_cache` says it has fetched, the filter admits. -/
theorem admits_of_fetchedTypes
    (h : ∀ keys, fetchedTypes f = some keys → key ∈ keys) : f.admits key = true := by
  unfold fetchedTypes at h
  split at h
  next hfull => exact StateFilter.admits_of_isFull hfull
  · exact StateFilter.admits_of_mem_concreteTypes (h _ rfl)

/-- A cache for the keys that satisfy `p` stays right if it gets the part with these keys of a state
map that was fetched with a filter, and the keys that the filter for this part names. -/
theorem agreesWith_update_part {cache : StateCache ε}
    (h : cache.AgreesWith group (partOf p stateDict)) {f fPart : StateFilter}
    (hpart : ∀ key, p key = true → fPart.admits key = f.admits key) {sequence group' : ℕ}
    (hgroup : group' = group → ∀ key, groupStateDict.lookup key = (f.filterState stateDict).lookup key) :
    (cache.update sequence group' (groupStateDict.filterItems fun key _ => p key)
      (fetchedTypes fPart)).AgreesWith group (partOf p stateDict) := by
  have hlookup : group' = group → ∀ key, (groupStateDict.filterItems fun key _ => p key).lookup key =
      if p key && f.admits key then stateDict.lookup key else none := by
    intro heq key
    rw [lookup_filterItems_part, partOf, hgroup heq key, lookup_filterState]
    cases p key <;> cases f.admits key <;> rfl
  refine h.update (fun heq key eventId hvalue => ?_) fun heq key hfetched => ?_
  · unfold partOf
    cases hp : p key <;> cases hadmits : f.admits key <;> simp_all
  · have hadmits := admits_of_fetchedTypes hfetched
    rw [hlookup heq key]
    unfold partOf
    cases hp : p key with
    | false => rfl
    | true => rw [← hpart key hp, hadmits]; rfl

theorem isMember_iff : isMember key = true ↔ key.1 = .member := decide_eq_true_iff

theorem isNonMember_iff : isNonMember key = true ↔ key.1 ≠ .member := decide_eq_true_iff

/-- The caches stay right if what is put into them is. -/
theorem StateCaches.AgreeWith.insertGroup (h : caches.AgreeWith group stateDict)
    {item : ℕ × StateMap ε} (hitem : item.1 = group →
      ∀ key, item.2.lookup key = (f.filterState stateDict).lookup key) (seqM seqNm : ℕ) :
    (caches.insertGroup f seqM seqNm item).AgreeWith group stateDict where
  nonMembers := agreesWith_update_part h.nonMembers
    (fun _ hkey => admits_nonMemberFilter (isNonMember_iff.mp hkey)) hitem
  members := agreesWith_update_part h.members
    (fun _ hkey => admits_memberFilter (isMember_iff.mp hkey)) hitem

variable {lookup : Lookup ε}

section
variable (h : caches.AgreeWith group stateDict)
include h

theorem StateCaches.AgreeWith.fill {answer : GroupStates ε}
    (hanswer : ∀ groupStateDict, answer.lookup group = some groupStateDict →
      ∀ key, groupStateDict.lookup key = (lookup.dbStateFilter.filterState stateDict).lookup key) :
    (caches.fill lookup answer).2.AgreeWith group stateDict := by
  refine foldlRecOn (motive := fun caches : StateCaches ε => caches.AgreeWith group stateDict)
    answer.items _ h fun caches hcaches item hitem => ?_
  refine hcaches.insertGroup (fun heq => ?_) _ _
  exact hanswer item.2 (heq ▸ mem_items.mp hitem)

/-- The full state is what the filter for all events selects. -/
theorem StateCaches.AgreeWith.prefill {seqM seqNm stateGroup : ℕ} {currentStateIds : StateMap ε}
    (hcurrent : stateGroup = group → ∀ key, currentStateIds.lookup key = stateDict.lookup key) :
    (caches.prefill seqM seqNm stateGroup currentStateIds).AgreeWith group stateDict := by
  show (caches.insertGroup .all seqM seqNm (stateGroup, currentStateIds)).AgreeWith group stateDict
  exact h.insertGroup hcurrent seqM seqNm

theorem StateCaches.AgreeWith.modify {members : Bool} {change : StateCache ε → StateCache ε}
    (hchange : ∀ {cache : StateCache ε} {dict : StateKey → Option ε},
      cache.AgreesWith group dict → (change cache).AgreesWith group dict) :
    (caches.modify members change).AgreeWith group stateDict := by
  cases members with
  | false => exact ⟨hchange h.nonMembers, h.members⟩
  | true => exact ⟨h.nonMembers, hchange h.members⟩

end

/-! ## One call -/

/-- The groups that a lookup does not ask the database for are there. -/
structure Lookup.Right (state : ℕ → StateMap ε) (lookup : Lookup ε) : Prop where
  complete : ∀ group ∈ lookup.groups, group ∉ lookup.incompleteGroups →
    ∃ stateDict, lookup.state.lookup group = some stateDict ∧
      ∀ key, stateDict.lookup key = (lookup.stateFilter.filterState (state group)).lookup key
  incomplete : ∀ group ∈ lookup.incompleteGroups, group ∈ lookup.groups

variable {state : ℕ → StateMap ε} {groups : List ℕ}

theorem lookUp_right (f : StateFilter)
    (h : ∀ group ∈ groups, caches.AgreeWith group (state group)) :
    (caches.lookUp groups f).1.Right state := by
  have hnonMember := getStateForGroupsUsingCache_right (f := f.nonMemberFilter)
    fun group hmem => (h group hmem).nonMembers
  have hmember := getStateForGroupsUsingCache_right (f := f.memberFilter)
    fun group hmem => (h group hmem).members
  refine ⟨fun group hmem hcomplete => ?_, fun group hmem => ?_⟩
  · have hcomplete := mt mem_dedup.mpr hcomplete
    rw [mem_append, not_or] at hcomplete
    obtain ⟨nonMembers, hlookupNm, hnm⟩ := hnonMember.found group (mem_dedup.mpr hmem)
    obtain ⟨members, hlookupM, hm⟩ := hmember.found group (mem_dedup.mpr hmem)
    obtain ⟨stateDict, hlookup, hstate⟩ := lookup_foldl_addMembers groups group hmem
    refine ⟨stateDict, hlookup, fun key => ?_⟩
    rw [hstate key, getD_of_lookup hlookupM, getD_of_lookup hlookupNm,
      hm hcomplete.1 key, hnm hcomplete.2 key]
    exact lookup_filterState_parts f (state group) key
  · rcases mem_append.mp (mem_dedup.mp hmem) with hmem | hmem
    · exact mem_dedup.mp (hmember.incomplete group hmem)
    · exact mem_dedup.mp (hnonMember.incomplete group hmem)

theorem exact_of_incompleteGroups_nil (h : lookup.Right state)
    (hnil : lookup.incompleteGroups.isEmpty = true) :
    Exact state lookup.groups lookup.stateFilter lookup.state := by
  intro group hmem
  refine h.complete group hmem ?_
  rw [isEmpty_iff.mp hnil]
  exact not_mem_nil

/-- Filtering what was fetched with the expanded filter. -/
theorem lookup_filterState_returnExpanded (f : StateFilter) {stateDict groupStateDict : StateMap ε}
    (h : ∀ key, groupStateDict.lookup key = (f.returnExpanded.filterState stateDict).lookup key)
    (key : StateKey) :
    (f.filterState groupStateDict).lookup key = (f.filterState stateDict).lookup key := by
  rw [lookup_filterState, lookup_filterState, h key, lookup_filterState]
  split
  next hadmits => rw [if_pos (StateFilter.admits_returnExpanded hadmits)]
  · rfl

/-- What the database was asked for replaces what the caches had. -/
theorem fill_exact (caches : StateCaches ε) (h : lookup.Right state) {answer : GroupStates ε}
    (hanswer : WalkAnswers state lookup.incompleteGroups lookup.dbStateFilter answer) :
    Exact state lookup.groups lookup.stateFilter (caches.fill lookup answer).1 := by
  have hfst : (answer.items.map fun (group, groupStateDict) =>
      (group, lookup.stateFilter.filterState groupStateDict)).map Prod.fst = answer.keys := by
    rw [map_map, ← map_fst_items]
    rfl
  have hupdate : ∀ group stateDict, (caches.fill lookup answer).1.lookup group = some stateDict ↔ _ :=
    fun group stateDict => lookup_update (hfst ▸ answer.keys_nodup)
  intro group hmem
  by_cases hincomplete : group ∈ lookup.incompleteGroups
  · obtain ⟨groupStateDict, hlookup⟩ := exists_lookup ((hanswer.mem group).mpr hincomplete)
    refine ⟨lookup.stateFilter.filterState groupStateDict, ?_, ?_⟩
    · refine (hupdate group _).mpr (.inl (mem_map.mpr ?_))
      exact ⟨(group, groupStateDict), mem_items.mpr hlookup, rfl⟩
    · exact lookup_filterState_returnExpanded _ (hanswer.lookup group groupStateDict hlookup)
  · obtain ⟨stateDict, hlookup, hstate⟩ := h.complete group hmem hincomplete
    refine ⟨stateDict, (hupdate group _).mpr (.inr ⟨?_, hlookup⟩), hstate⟩
    rw [hfst]
    exact fun hkeys => hincomplete ((hanswer.mem group).mp (AList.mem_keys.mpr hkeys))

/-- One call with nothing in between.  What the caches hold about the groups has to be right; they stay
right about every group of which the walk can only return the state. -/
theorem getStateForGroups_ok {χ : Type}
    {walk : List ℕ → StateFilter → Except χ (GroupStates ε)}
    (hcaches : ∀ group ∈ groups, caches.AgreeWith group (state group))
    (hwalk : ∀ asked, (∀ group ∈ asked, group ∈ groups) →
      ∃ answer, walk asked f.returnExpanded = .ok answer ∧
        WalkAnswers state asked f.returnExpanded answer) :
    ∃ result caches', caches.getStateForGroups walk groups f = .ok (result, caches') ∧
      Exact state groups f result ∧ ∀ group stateDict, (group ∈ groups → state group = stateDict) →
        caches.AgreeWith group stateDict → caches'.AgreeWith group stateDict := by
  have hright := lookUp_right f hcaches
  have hkeep := fun group stateDict (h : caches.AgreeWith group stateDict) => h.lookUp groups f
  unfold StateCaches.getStateForGroups
  dsimp only
  split
  next hnil =>
    exact ⟨_, _, rfl, exact_of_incompleteGroups_nil hright hnil, fun group stateDict _ h =>
      hkeep group stateDict h⟩
  · obtain ⟨answer, hanswer, hexact⟩ := hwalk _ hright.incomplete
    refine ⟨_, ((caches.lookUp groups f).2.fill (caches.lookUp groups f).1 answer).2, ?_,
      fill_exact (caches.lookUp groups f).2 hright hexact, fun group stateDict hgroup h => ?_⟩
    · rw [show (caches.lookUp groups f).1.dbStateFilter = f.returnExpanded from rfl, hanswer]
      rfl
    · refine (hkeep group stateDict h).fill fun groupStateDict hlookup => ?_
      have hmem := (hexact.mem group).mp (mem_of_lookup hlookup)
      rw [← hgroup (hright.incomplete group hmem)]
      exact hexact.lookup group groupStateDict hlookup

/-! ## Runs -/

/-- No cache is wrong about a group, no waiting call will be and none has been. -/
structure Server.Inv (state : ℕ → StateMap ε) (s : Server ε) : Prop where
  caches : ∀ group, s.caches.AgreeWith group (state group)
  waiting : ∀ lookup ∈ s.waiting, lookup.Right state
  returned : ∀ call ∈ s.returned, Exact state call.groups call.stateFilter call.result

theorem Server.Inv.init : (Server.init : Server ε).Inv state where
  caches _ := ⟨DictionaryCache.empty_agreesWith, DictionaryCache.empty_agreesWith⟩
  waiting _ hmem := nomatch hmem
  returned _ hmem := nomatch hmem

theorem Server.Inv.step {s : Server ε} (h : s.Inv state) {action : Action ε}
    (hfaithful : action.Faithful state s) : (s.step action).Inv state := by
  cases action with
  | call groups f =>
    have hright := lookUp_right f fun group (_ : group ∈ groups) => h.caches group
    have hcaches := fun group => (h.caches group).lookUp groups f
    unfold Server.step
    dsimp only
    split
    next hnil =>
      exact ⟨hcaches, h.waiting,
        forall_mem_cons.mpr ⟨exact_of_incompleteGroups_nil hright hnil, h.returned⟩⟩
    · exact ⟨hcaches, forall_mem_cons.mpr ⟨hright, h.waiting⟩, h.returned⟩
  | answer place groupToStateDict =>
    unfold Server.step
    dsimp only
    split
    · exact h
    next lookup hplace =>
      have hright := h.waiting lookup (mem_of_getElem? hplace)
      have hanswer := hfaithful lookup hplace
      refine ⟨fun group => (h.caches group).fill (hanswer.lookup group), fun call hmem => ?_,
        forall_mem_cons.mpr ⟨fill_exact s.caches hright hanswer, h.returned⟩⟩
      exact h.waiting call (mem_of_mem_eraseIdx hmem)
  | prefill seqM seqNm stateGroup currentStateIds =>
    refine ⟨fun group => (h.caches group).prefill fun heq => ?_, h.waiting, h.returned⟩
    exact heq ▸ hfaithful
  | invalidate members group' =>
    exact ⟨fun group => (h.caches group).modify fun hcache => hcache.invalidate, h.waiting, h.returned⟩
  | invalidateAll members =>
    exact ⟨fun group => (h.caches group).modify fun _ => DictionaryCache.invalidateAll_agreesWith,
      h.waiting, h.returned⟩
  | evict members perKey fullDict =>
    exact ⟨fun group => (h.caches group).modify fun hcache => hcache.evict, h.waiting, h.returned⟩

theorem Run.inv {s : Server ε} (run : Run state s) : s.Inv state := by
  induction run with
  | init => exact Server.Inv.init
  | step _ action hfaithful ih => exact ih.step hfaithful

/-- However lookups, fills, invalidations and evictions interleave, every call of
`_get_state_for_groups` returns what the filter selects of the state of each group. -/
theorem getStateForGroups_exact (forest : Forest ε) {s : Server ε} (run : Run forest.state s) :
    ∀ call ∈ s.returned, Exact forest.state call.groups call.stateFilter call.result := run.inv.returned

/-- The first waiting call gets what the groups hold. -/
def walkAction (state : ℕ → StateMap ε) (s : Server ε) : Action ε := .answer 0 <| match s.waiting[0]? with
    | none => ∅
    | some lookup => ofKeys lookup.incompleteGroups fun group =>
      lookup.dbStateFilter.filterState (state group)

theorem walkAction_faithful (s : Server ε) : (walkAction state s).Faithful state s := by
  intro lookup hlookup
  rw [hlookup]
  refine ⟨fun group => mem_ofKeys, fun group stateDict hdict key => ?_⟩
  rw [← (lookup_ofKeys_eq_some.mp hdict).2]

/-- A room's create event and its first member, then a topic as a delta. -/
def topicForest : Forest String where
  prevGroup group := if group = 2 then some 1 else none
  deltaIds group :=
    if group = 1 then update ∅ [((.create, ""), "$create"), ((.member, "@alice"), "$join")]
    else if group = 2 then single (.other "m.room.topic", "") "$topic"
    else ∅
  prevGroup_lt := by
    intro group prev h
    obtain ⟨rfl, hprev⟩ := Option.ite_none_right_eq_some.mp h
    rw [← Option.some.inj hprev]
    decide

/-- All types but the member events, and one member. -/
def lazyLoadAlice : StateFilter := .ofTypes (single .member (some ⟨["@alice"], by decide⟩)) true

/-- The first group is in the caches when a call for both groups looks them up, and is evicted while
the call waits for the second. -/
def topicServer : Server String :=
  ((Server.init.step (.prefill 0 0 1 (topicForest.state 1))).step (.call [1, 2] lazyLoadAlice)).step
    (.evict false [] [1])

theorem topicServer_run : Run topicForest.state topicServer :=
  ((Run.init.step (.prefill 0 0 1 (topicForest.state 1)) fun _ => rfl).step
    (.call [1, 2] lazyLoadAlice) trivial).step (.evict false [] [1]) trivial

/-- The call returns after the database has answered, and the next one is answered from the caches. -/
theorem getStateForGroups_exact_topic :
    let s := (topicServer.step (walkAction topicForest.state topicServer)).step (.call [2] lazyLoadAlice)
    s.returned.map (·.groups) = [[2], [1, 2]] ∧
      ∀ call ∈ s.returned, Exact topicForest.state call.groups call.stateFilter call.result :=
  ⟨by decide +kernel, getStateForGroups_exact topicForest
    (.step (.step topicServer_run _ (walkAction_faithful topicServer)) _ trivial)⟩

end
end Synapse.StateGroups
