import Synapse.StateGroups.Walks

/-!
# Storing and purging state groups

`StateGroupDataStore` (`synapse/storage/databases/state/store.py`) stores a state group as a delta from a
previous group, or with its full state if there is none or the chain would get too long.  Groups that
are no longer referenced are purged: the groups that are deltas from them get their full state first.

What this is for is said by `AbstractStore`: a map from the groups that exist to their states, to which
a new group is added and from which purged ones are removed.  The tables refine it, with the caches, in
every run.  Purging leaves the rows of `state_group_edges` that start at a purged group; no chain that
starts at a group that exists comes to them, because a group that exists never has an edge to one that
does not.

Operations run one after the other here.  An exception leaves everything as it was.
-/

namespace Synapse.StateGroups

open Synapse.Util Synapse.State Synapse.Caches List AList Dict
open Option (bind_some ext some.inj)
open Dict (mem_of_lookup single)

variable {ε : Type}

/-! ## The code -/

def maxStateDeltaHops : ℕ := 100

inductive StoreError where
  /-- "current_state_ids and prev_group can't both be None" -/
  | bothNone
  /-- "delta_ids is None when prev_group is not None" -/
  | deltaIdsNone
  /-- "Trying to persist state with unpersisted prev_group: %r" -/
  | unpersistedPrevGroup (prevGroup : ℕ)
  | walk (error : WalkError)
  /-- `groups[prev_group]` -/
  | keyError
  deriving DecidableEq

structure StateGroupStore (ε : Type) where
  tables : StateTables ε
  /-- The last id that `_state_group_seq_gen` has given.  There is one process, which gives no id twice.
  (On SQLite it starts from the greatest id in `state_groups` when it is restarted, so that an id may
  come again after a purge of the last groups and a restart; there are no restarts here.) -/
  lastId : ℕ
  caches : StateCaches ε

def StateGroupStore.init : StateGroupStore ε := ⟨⟨[], [], []⟩, 0, ⟨.empty, .empty⟩⟩

/-- The loop of `_count_state_group_hops_txn` on SQLite. -/
def countHopsSqlite (t : StateTables ε) : ℕ → Option ℕ → ℕ → Except WalkError ℕ
  | _, none, count => .ok count
  | 0, some nextGroup, count => if nextGroup = 0 then .ok count else .error .doesNotEnd
  | rounds + 1, some nextGroup, count =>
    if nextGroup = 0 then .ok count
    else
      let nextGroup := t.prevStateGroup nextGroup
      let count := if nextGroup = none ∨ nextGroup = some 0 then count else count + 1
      countHopsSqlite t rounds nextGroup count

variable (engine : DatabaseEngine)

def countStateGroupHopsTxn (t : StateTables ε) (stateGroup : ℕ) :
    Except WalkError ℕ :=
  match engine with
  | .postgres =>
    match withRecursive t.prevStateGroups (stateGroup + 1) [stateGroup] with
    | none => .error .doesNotEnd
    | some state => .ok state.length
  | .sqlite => countHopsSqlite t (stateGroup + 1) (some stateGroup) 0

/-- The rows of `state_groups_state` for a state map. -/
def rowsFor (stateGroup : ℕ) (ids : StateMap ε) : List (StateRow ε) :=
  ids.items.map fun item => ⟨stateGroup, item.1, item.2⟩

/-- The rows of a new group: one in `state_groups`, one in `state_group_edges` if it is stored as a
delta, and those of `state_groups_state`. -/
def StateTables.insertGroup (t : StateTables ε) (stateGroup : ℕ) (prevGroup : Option ℕ)
    (ids : StateMap ε) : StateTables ε where
  stateGroups := t.stateGroups ++ [stateGroup]
  stateGroupEdges := t.stateGroupEdges ++ prevGroup.toList.map (stateGroup, ·)
  stateGroupsState := t.stateGroupsState ++ rowsFor stateGroup ids

/-- Returns no group if the state has to be stored in full. -/
def insertDeltaGroupTxn (s : StateGroupStore ε) (prevGroup : ℕ)
    (deltaIds : StateMap ε) : Except StoreError (Option ℕ × StateGroupStore ε) :=
  if prevGroup ∉ s.tables.stateGroups then .error (.unpersistedPrevGroup prevGroup)
  else
    match countStateGroupHopsTxn engine s.tables prevGroup with
    | .error error => .error (.walk error)
    | .ok potentialHops =>
      if potentialHops ≥ maxStateDeltaHops then .ok (none, s)
      else
        let stateGroup := s.lastId + 1
        .ok (some stateGroup, { s with
          tables := s.tables.insertGroup stateGroup (some prevGroup) deltaIds
          lastId := stateGroup })

def insertFullStateTxn (s : StateGroupStore ε) (currentStateIds : StateMap ε) : ℕ × StateGroupStore ε :=
  let stateGroup := s.lastId + 1
  (stateGroup,
    { tables := s.tables.insertGroup stateGroup none currentStateIds
      lastId := stateGroup
      caches := s.caches.prefill s.caches.stateGroupMembersCache.sequence
        s.caches.stateGroupCache.sequence stateGroup currentStateIds })

section
variable [DecidableEq ε]

/-- Reads 100 groups at a time. -/
def getStateGroupsFromGroups (t : StateTables ε) (groups : List ℕ)
    (f : StateFilter) : Except WalkError (GroupStates ε) :=
  (batchIter 100 groups).foldlM (fun results chunk => do
    let res ← getStateGroupsFromGroupsTxn engine t chunk f
    .ok (results.update res.items)) ∅

/-- `current_state_ids`, from the state of the previous group if it was not given. -/
def loadCurrentState (s : StateGroupStore ε) (prevGroup : ℕ)
    (deltaIds : StateMap ε) : Option (StateMap ε) → Except StoreError (StateMap ε × StateGroupStore ε)
  | some currentStateIds => .ok (currentStateIds, s)
  | none =>
    match s.caches.getStateForGroups (getStateGroupsFromGroups engine s.tables) [prevGroup] .all with
    | .error error => .error (.walk error)
    | .ok (groups, caches) =>
      match groups.lookup prevGroup with
      | none => .error .keyError
      | some prevState => .ok (prevState.update deltaIds.items, { s with caches := caches })

def storeStateGroup (s : StateGroupStore ε) (prevGroup : Option ℕ)
    (deltaIds currentStateIds : Option (StateMap ε)) : Except StoreError (ℕ × StateGroupStore ε) :=
  match prevGroup, deltaIds, currentStateIds with
  | none, _, none => .error .bothNone
  | none, _, some currentStateIds => .ok (insertFullStateTxn s currentStateIds)
  | some _, none, _ => .error .deltaIdsNone
  | some prevGroup, some deltaIds, currentStateIds => do
    let (stateGroup, s) ← insertDeltaGroupTxn engine s prevGroup deltaIds
    match stateGroup with
    | some stateGroup => .ok (stateGroup, s)
    | none =>
      let (currentStateIds, s) ← loadCurrentState engine s prevGroup deltaIds currentStateIds
      .ok (insertFullStateTxn s currentStateIds)

end

/-- An event and its context.  The context of an event that is not a state event has no delta. -/
structure BatchedEvent (ε : Type) where
  eventId : ε
  /-- `(type, state_key)` if it is a state event. -/
  stateKey : Option StateKey
  stateDeltaDueToEvent : Option (StateMap ε)
  noDelta : stateKey = none → stateDeltaDueToEvent = none ∨ stateDeltaDueToEvent = some ∅

/-- What `insert_deltas_group_txn` writes into the contexts. -/
structure PersistedContext (ε : Type) where
  isState : Bool
  stateGroupBeforeEvent : ℕ
  stateGroupAfterEvent : ℕ
  stateDeltaDueToEvent : Option (StateMap ε)

/-- The loop of `insert_deltas_group_txn`, from `sg_before` and the last id that was taken; the ids of
`get_next_mult_txn` follow each other. -/
def assignStateGroups : ℕ → ℕ → List (BatchedEvent ε) → List (PersistedContext ε)
  | _, _, [] => []
  | lastId, sgBefore, event :: events =>
    match event.stateKey with
    | none =>
      ⟨false, sgBefore, sgBefore, event.stateDeltaDueToEvent⟩ :: assignStateGroups lastId sgBefore events
    | some key =>
      ⟨true, sgBefore, lastId + 1, some (single key event.eventId)⟩ ::
        assignStateGroups (lastId + 1) (lastId + 1) events

def StateTables.insertContexts (t : StateTables ε) (contexts : List (PersistedContext ε)) :
    StateTables ε where
  stateGroups := t.stateGroups ++ (contexts.filter (·.isState)).map (·.stateGroupAfterEvent)
  stateGroupEdges := t.stateGroupEdges ++ (contexts.filter (·.isState)).map fun context =>
      (context.stateGroupAfterEvent, context.stateGroupBeforeEvent)
  stateGroupsState := t.stateGroupsState ++ contexts.flatMap fun context =>
      match context.stateDeltaDueToEvent with
      | none => []
      | some delta => rowsFor context.stateGroupAfterEvent delta

def storeStateDeltasForBatched (s : StateGroupStore ε) (events : List (BatchedEvent ε))
    (prevGroup : ℕ) : Except StoreError (List (PersistedContext ε) × StateGroupStore ε) :=
  if prevGroup ∉ s.tables.stateGroups then .error (.unpersistedPrevGroup prevGroup)
  else
    let contexts := assignStateGroups s.lastId prevGroup events
    let numStateGroups := events.countP (·.stateKey.isSome)
    .ok (contexts, { s with
      tables := s.tables.insertContexts contexts
      lastId := s.lastId + numStateGroups })

/-- The deletes and the insert for one group of `remaining_state_groups`. -/
def StateTables.replaceByFullState (t : StateTables ε) (sg : ℕ) (currState : StateMap ε) :
    StateTables ε where
  stateGroups := t.stateGroups
  stateGroupEdges := t.stateGroupEdges.filter fun edge => edge.1 ≠ sg
  stateGroupsState := (t.stateGroupsState.filter fun row => row.stateGroup ≠ sg) ++ rowsFor sg currState

/-- `DELETE FROM state_groups_state` and `DELETE FROM state_groups`. -/
def StateTables.deleteGroups (t : StateTables ε) (stateGroupsToDelete : List ℕ) : StateTables ε where
  stateGroups := t.stateGroups.filter fun group => group ∉ stateGroupsToDelete
  stateGroupEdges := t.stateGroupEdges
  stateGroupsState := t.stateGroupsState.filter fun row => row.stateGroup ∉ stateGroupsToDelete

/-- The groups that are deltas from groups to delete and are not deleted themselves, in the order in which
the set is walked. -/
def StateTables.remainingStateGroups (t : StateTables ε) (order : IterOrder)
    (stateGroupsToDelete : List ℕ) : List ℕ := order.order
  (((t.stateGroupEdges.filter fun edge => edge.2 ∈ stateGroupsToDelete).map (·.1)).filter fun group =>
    group ∉ stateGroupsToDelete).dedup

section
variable [DecidableEq ε]

def deDelta (t : StateTables ε) (sg : ℕ) : Except StoreError (StateTables ε) :=
  match getStateGroupsFromGroupsTxn engine t [sg] .all with
  | .error error => .error (.walk error)
  | .ok currStateByGroup =>
    match currStateByGroup.lookup sg with
    | none => .error .keyError
    | some currState => .ok (t.replaceByFullState sg currState)

def purgeUnreferencedStateGroups (s : StateGroupStore ε) (order : IterOrder)
    (stateGroupsToDelete : List ℕ) : Except StoreError (StateGroupStore ε) := do
  let tables ← (s.tables.remainingStateGroups order stateGroupsToDelete).foldlM (deDelta engine) s.tables
  .ok { s with tables := tables.deleteGroups stateGroupsToDelete }

inductive Operation (ε : Type) where
  | storeStateGroup (prevGroup : Option ℕ) (deltaIds currentStateIds : Option (StateMap ε))
  | storeStateDeltasForBatched (events : List (BatchedEvent ε)) (prevGroup : ℕ)
  | purgeUnreferencedStateGroups (order : IterOrder) (stateGroupsToDelete : List ℕ)

/-- What an operation leaves; nothing changes if it raises an exception. -/
def StateGroupStore.step (s : StateGroupStore ε) :
    Operation ε → StateGroupStore ε
  | .storeStateGroup prevGroup deltaIds currentStateIds =>
    match Synapse.StateGroups.storeStateGroup engine s prevGroup deltaIds currentStateIds with
    | .error _ => s
    | .ok (_, s') => s'
  | .storeStateDeltasForBatched events prevGroup =>
    match Synapse.StateGroups.storeStateDeltasForBatched s events prevGroup with
    | .error _ => s
    | .ok (_, s') => s'
  | .purgeUnreferencedStateGroups order stateGroupsToDelete =>
    match Synapse.StateGroups.purgeUnreferencedStateGroups engine s order stateGroupsToDelete with
    | .error _ => s
    | .ok s' => s'

def StateGroupStore.run (operations : List (Operation ε)) : StateGroupStore ε :=
  operations.foldl (StateGroupStore.step engine) StateGroupStore.init

end

/-! ## What it is for -/

/-- The states of the groups that exist. -/
structure AbstractStore (ε : Type) where
  states : GroupStates ε
  lastId : ℕ

namespace AbstractStore

def init : AbstractStore ε := ⟨∅, 0⟩

/-- A new group with this state. -/
def add (a : AbstractStore ε) (state : StateMap ε) : AbstractStore ε :=
  ⟨a.states.insert (a.lastId + 1) state, a.lastId + 1⟩

/-- New groups for a chain of state events; the others have the state of the event before. -/
def addChain (a : AbstractStore ε) (state : StateMap ε) : List (BatchedEvent ε) → AbstractStore ε
  | [] => a
  | event :: events =>
    match event.stateKey with
    | none => addChain a state events
    | some key =>
      let state := state.insert key event.eventId
      addChain (a.add state) state events

def step (a : AbstractStore ε) : Operation ε → AbstractStore ε
  | .storeStateGroup none _ none => a
  | .storeStateGroup none _ (some currentStateIds) => a.add currentStateIds
  | .storeStateGroup (some _) none _ => a
  | .storeStateGroup (some prevGroup) (some deltaIds) _ =>
    match a.states.lookup prevGroup with
    | none => a
    | some prevState => a.add (prevState.update deltaIds.items)
  | .storeStateDeltasForBatched events prevGroup =>
    match a.states.lookup prevGroup with
    | none => a
    | some prevState => a.addChain prevState events
  | .purgeUnreferencedStateGroups _ stateGroupsToDelete =>
    { a with states := a.states.eraseAll stateGroupsToDelete }

def run (operations : List (Operation ε)) : AbstractStore ε := operations.foldl step init

end AbstractStore

/-- A full state that is given with a previous group and a delta is the state that they give. -/
def Operation.Consistent (a : AbstractStore ε) : Operation ε → Prop
  | .storeStateGroup (some prevGroup) (some deltaIds) (some currentStateIds) =>
    ∀ prevState, a.states.lookup prevGroup = some prevState →
      ∀ key, currentStateIds.lookup key = (prevState.update deltaIds.items).lookup key
  | _ => True

/-! ## Tables that hold states -/

variable {group : ℕ} {ids : StateMap ε} {row : StateRow ε}

theorem mem_rowsFor :
    row ∈ rowsFor group ids ↔ row.stateGroup = group ∧ ids.lookup row.key = some row.eventId := by
  unfold rowsFor
  rw [mem_map, ← mem_items]
  constructor
  · intro h
    obtain ⟨item, hitem, rfl⟩ := h
    exact ⟨rfl, hitem⟩
  · intro h
    exact ⟨(row.key, row.eventId), h.2, by rw [← h.1]⟩

/-- Rows for a group that has none yet. -/
theorem nodup_append_rowsFor {rows : List (StateRow ε)}
    (hrows : (rows.map fun row => (row.stateGroup, row.key)).Nodup)
    (hnew : ∀ row ∈ rows, row.stateGroup ≠ group) :
    ((rows ++ rowsFor group ids).map fun row => (row.stateGroup, row.key)).Nodup := by
  rw [map_append, nodup_append]
  refine ⟨hrows, ?_, fun pair hpair pair' hpair' heq => ?_⟩
  · have hkeys : (rowsFor group ids).map (fun row => (row.stateGroup, row.key)) =
        ids.keys.map (group, ·) := by
      unfold rowsFor
      rw [map_map, ← map_fst_items, map_map]
      rfl
    rw [hkeys]
    exact ids.keys_nodup.map fun _ _ h => (Prod.mk.inj h).2
  · obtain ⟨row, hrow, rfl⟩ := mem_map.mp hpair
    obtain ⟨row', hrow', rfl⟩ := mem_map.mp hpair'
    exact hnew row hrow ((Prod.mk.inj heq).1.trans (mem_rowsFor.mp hrow').1)

namespace StateTables
variable {t t' : StateTables ε} {group : ℕ}

/-- The state of a group depends on the rows of its chain only. -/
theorem IsForest.lookup_state_congr (ht : t.IsForest) (ht' : t'.IsForest) {S : ℕ → Prop}
    (hclosed : ∀ edge ∈ t.stateGroupEdges, S edge.1 → S edge.2)
    (hedges : ∀ edge : ℕ × ℕ, S edge.1 → (edge ∈ t'.stateGroupEdges ↔ edge ∈ t.stateGroupEdges))
    (hrows : ∀ row : StateRow ε, S row.stateGroup →
      (row ∈ t'.stateGroupsState ↔ row ∈ t.stateGroupsState)) (hS : S group)
    (key : StateKey) : (t'.state group).lookup key = (t.state group).lookup key := by
  refine lookup_chainState_congr ht.prevStateGroup_lt (fun group prev hS hprev => ?_)
    (fun group hS => ext fun prev => ?_) (fun group key hS => ext fun eventId => ?_)
    ht'.prevStateGroup_lt key hS
  · exact hclosed _ (ht.prevStateGroup_eq_some.mp hprev) hS
  · rw [ht'.prevStateGroup_eq_some, ht.prevStateGroup_eq_some]
    exact hedges (group, prev) hS
  · rw [ht'.lookup_delta, ht.lookup_delta]
    exact hrows ⟨group, key, eventId⟩ hS

/-- The tables hold these states, and no row has an id that has not been given yet. -/
structure Holds (t : StateTables ε) (lastId : ℕ) (states : GroupStates ε) : Prop where
  forest : t.IsForest
  mem : ∀ group, group ∈ t.stateGroups ↔ group ∈ states
  group_le : ∀ group ∈ t.stateGroups, 0 < group ∧ group ≤ lastId
  edge_le : ∀ edge ∈ t.stateGroupEdges, edge.1 ≤ lastId
  row_le : ∀ row ∈ t.stateGroupsState, row.stateGroup ≤ lastId
  /-- The chain of a group that exists goes through groups that exist. -/
  edge_mem : ∀ edge ∈ t.stateGroupEdges, edge.1 ∈ t.stateGroups → edge.2 ∈ t.stateGroups
  state : ∀ group stateDict, states.lookup group = some stateDict →
    ∀ key, (t.state group).lookup key = stateDict.lookup key

theorem holds_init : Holds (⟨[], [], []⟩ : StateTables ε) 0 ∅ := by
  refine ⟨⟨?_, nodup_nil, nodup_nil, ?_⟩, fun _ => iff_of_false not_mem_nil (notMem_empty _), ?_, ?_, ?_,
    ?_, nofun⟩
  all_goals exact nofun

/-! ## A new group -/

variable {lastId : ℕ} {states : GroupStates ε} {prevGroup : Option ℕ} {ids : StateMap ε}
  {edge : ℕ × ℕ}

theorem mem_insertGroup_edges :
    edge ∈ (t.insertGroup group prevGroup ids).stateGroupEdges ↔
      edge ∈ t.stateGroupEdges ∨ edge.1 = group ∧ prevGroup = some edge.2 := by
  obtain ⟨group', prev⟩ := edge
  cases prevGroup <;> simp [insertGroup, eq_comm]

theorem mem_insertGroup_rows : row ∈ (t.insertGroup group prevGroup ids).stateGroupsState ↔
      row ∈ t.stateGroupsState ∨ row.stateGroup = group ∧ ids.lookup row.key = some row.eventId := by
  unfold insertGroup
  rw [mem_append, mem_rowsFor]

variable (h : t.Holds lastId states)
include h in
theorem Holds.insertGroup_isForest (ids : StateMap ε)
    (hprev : ∀ prev, prevGroup = some prev → prev ∈ t.stateGroups) :
    (t.insertGroup (lastId + 1) prevGroup ids).IsForest := by
  refine ⟨fun edge hmem => ?_, ?_, ?_, fun row hmem => ?_⟩
  · rcases mem_insertGroup_edges.mp hmem with hmem | ⟨hgroup, hedge⟩
    · exact h.forest.edge_lt edge hmem
    · obtain ⟨hpos, hle⟩ := h.group_le edge.2 (hprev edge.2 hedge)
      exact ⟨hpos, by omega⟩
  · rw [StateTables.insertGroup, map_append, nodup_append]
    refine ⟨h.forest.edge_unique, by cases prevGroup <;> simp, fun group hgroup group' hgroup' => ?_⟩
    obtain ⟨edge, hedge, rfl⟩ := mem_map.mp hgroup
    have hnew : group' = lastId + 1 := by
      cases prevGroup with
      | none => exact nomatch hgroup'
      | some prev => exact mem_singleton.mp hgroup'
    have := h.edge_le edge hedge
    omega
  · refine nodup_append_rowsFor h.forest.row_unique fun row hmem => ?_
    have := h.row_le row hmem
    omega
  · rcases mem_insertGroup_rows.mp hmem with hmem | ⟨hgroup, _⟩
    · exact h.forest.row_pos row hmem
    · omega

variable {state : StateMap ε}
include h in
/-- A new group has the state that its delta and its previous group give; no other state changes. -/
theorem Holds.insertGroup (hprev : ∀ prev, prevGroup = some prev → prev ∈ t.stateGroups)
    (hstate : ∀ key, state.lookup key = (ids.lookup key).or
      (prevGroup.bind fun prev => (t.state prev).lookup key)) :
    (t.insertGroup (lastId + 1) prevGroup ids).Holds (lastId + 1) (states.insert (lastId + 1) state) := by
  have hforest := h.insertGroup_isForest ids hprev
  -- the rows of the groups so far are as they were
  have hold : ∀ group ≤ lastId, ∀ key,
      ((t.insertGroup (lastId + 1) prevGroup ids).state group).lookup key =
        (t.state group).lookup key := by
    intro group hle key
    refine h.forest.lookup_state_congr hforest (S := (· ≤ lastId)) (fun edge hedge hle => ?_)
      (fun edge hle => ?_) (fun row hle => ?_) hle key
    · have := (h.forest.edge_lt edge hedge).2
      omega
    · rw [mem_insertGroup_edges]
      exact or_iff_left fun hnew => by omega
    · rw [mem_insertGroup_rows]
      exact or_iff_left fun hnew => by omega
  refine ⟨hforest, fun group => ?_, fun group hmem => ?_, fun edge hmem => ?_, fun row hmem => ?_,
    fun edge hmem hgroup => ?_, fun group stateDict hlookup key => ?_⟩
  · refine mem_append.trans ?_
    rw [mem_singleton, mem_insert, h.mem group, or_comm]
  · rcases mem_append.mp hmem with hmem | hmem
    · have := h.group_le group hmem
      omega
    · have := mem_singleton.mp hmem
      omega
  · rcases mem_insertGroup_edges.mp hmem with hmem | ⟨hgroup, _⟩
    · exact Nat.le_succ_of_le (h.edge_le edge hmem)
    · exact hgroup.le
  · rcases mem_insertGroup_rows.mp hmem with hmem | ⟨hgroup, _⟩
    · exact Nat.le_succ_of_le (h.row_le row hmem)
    · exact hgroup.le
  · refine mem_append_left _ ?_
    rcases mem_insertGroup_edges.mp hmem with hmem | ⟨_, hedge⟩
    · refine h.edge_mem edge hmem ((mem_append.mp hgroup).resolve_right fun hnew => ?_)
      have := mem_singleton.mp hnew
      have := h.edge_le edge hmem
      omega
    · exact hprev edge.2 hedge
  · rcases lookup_insert_cases hlookup with ⟨rfl, rfl⟩ | ⟨_, hlookup⟩
    · rw [hforest.lookup_state, hstate key]
      have hprevGroup : (t.insertGroup (lastId + 1) prevGroup ids).prevStateGroup (lastId + 1) =
          prevGroup := by
        refine ext fun prev => ?_
        rw [hforest.prevStateGroup_eq_some, mem_insertGroup_edges]
        refine (or_iff_right fun hmem => ?_).trans (and_iff_right rfl)
        have := h.edge_le _ hmem
        omega
      have hdelta : ((t.insertGroup (lastId + 1) prevGroup ids).delta (lastId + 1)).lookup key =
          ids.lookup key := by
        refine ext fun eventId => ?_
        rw [hforest.lookup_delta, mem_insertGroup_rows]
        refine (or_iff_right fun hmem => ?_).trans (and_iff_right rfl)
        exact absurd (h.row_le _ hmem) (Nat.not_succ_le_self lastId)
      rw [hprevGroup, hdelta]
      cases hp : prevGroup with
      | none => rfl
      | some prev =>
        have hold' := hold prev (h.group_le prev (hprev prev hp)).2 key
        rw [hp] at hold'
        rw [bind_some, bind_some, hold']
    · have hgroup := (h.mem group).mpr (mem_of_lookup hlookup)
      rw [hold group (h.group_le group hgroup).2 key]
      exact h.state group stateDict hlookup key

/-! ## Purging -/

variable {sg : ℕ} {currState : StateMap ε}

theorem mem_replaceByFullState_edges :
    edge ∈ (t.replaceByFullState sg currState).stateGroupEdges ↔
      edge ∈ t.stateGroupEdges ∧ edge.1 ≠ sg := by
  unfold replaceByFullState
  rw [mem_filter, decide_eq_true_iff]

theorem mem_replaceByFullState_rows : row ∈ (t.replaceByFullState sg currState).stateGroupsState ↔
      row ∈ t.stateGroupsState ∧ row.stateGroup ≠ sg ∨
        row.stateGroup = sg ∧ currState.lookup row.key = some row.eventId := by
  unfold replaceByFullState
  rw [mem_append, mem_filter, decide_eq_true_iff, mem_rowsFor]

theorem IsForest.replaceByFullState (h : t.IsForest) (hpos : 0 < sg) (currState : StateMap ε) :
    (t.replaceByFullState sg currState).IsForest := by
  refine ⟨fun edge hmem => ?_, ?_, ?_, fun row hmem => ?_⟩
  · exact h.edge_lt edge (mem_replaceByFullState_edges.mp hmem).1
  · exact h.edge_unique.sublist (filter_sublist.map _)
  · refine nodup_append_rowsFor (h.row_unique.sublist (filter_sublist.map _)) fun row hmem => ?_
    exact of_decide_eq_true (mem_filter.mp hmem).2
  · rcases mem_replaceByFullState_rows.mp hmem with ⟨hmem, _⟩ | ⟨hgroup, _⟩
    · exact h.row_pos row hmem
    · exact hgroup ▸ hpos

/-- A group that gets its full state keeps it, and so do the groups that are deltas from it. -/
theorem IsForest.lookup_state_replaceByFullState (h : t.IsForest) (hpos : 0 < sg)
    (hcurr : ∀ key, currState.lookup key = (t.state sg).lookup key) (group : ℕ) (key : StateKey) :
    ((t.replaceByFullState sg currState).state group).lookup key = (t.state group).lookup key := by
  have hforest := h.replaceByFullState hpos currState
  refine lookup_chainState_flatten h.prevStateGroup_lt sg (fun group => ?_)
    (fun group key => ?_) key group
  · refine ext fun prev => ?_
    rw [hforest.prevStateGroup_eq_some, mem_replaceByFullState_edges]
    split
    next hsg => simp [hsg]
    next hsg => simp [hsg, h.prevStateGroup_eq_some]
  · refine ext fun eventId => ?_
    rw [hforest.lookup_delta, mem_replaceByFullState_rows]
    split
    next hsg =>
      rw [← StateTables.state, ← hcurr key]
      simp [hsg]
    next hsg => simp [hsg, h.lookup_delta]

include h in
theorem Holds.replaceByFullState (hpos : 0 < sg) (hle : sg ≤ lastId)
    (hcurr : ∀ key, currState.lookup key = (t.state sg).lookup key) :
    (t.replaceByFullState sg currState).Holds lastId states := by
  refine ⟨h.forest.replaceByFullState hpos currState, h.mem, h.group_le, fun edge hmem => ?_,
    fun row hmem => ?_, fun edge hmem => ?_, fun group stateDict hlookup key => ?_⟩
  · exact h.edge_le edge (mem_replaceByFullState_edges.mp hmem).1
  · rcases mem_replaceByFullState_rows.mp hmem with ⟨hmem, _⟩ | ⟨hgroup, _⟩
    · exact h.row_le row hmem
    · exact hgroup ▸ hle
  · exact h.edge_mem edge (mem_replaceByFullState_edges.mp hmem).1
  · rw [h.forest.lookup_state_replaceByFullState hpos hcurr]
    exact h.state group stateDict hlookup key

theorem IsForest.deleteGroups (h : t.IsForest) (toDelete : List ℕ) : (t.deleteGroups toDelete).IsForest :=
  ⟨h.edge_lt, h.edge_unique, h.row_unique.sublist (filter_sublist.map _),
    fun row hmem => h.row_pos row (mem_filter.mp hmem).1⟩

variable {order : IterOrder} {toDelete : List ℕ}

theorem mem_deleteGroups :
    group ∈ (t.deleteGroups toDelete).stateGroups ↔ group ∈ t.stateGroups ∧ group ∉ toDelete := by
  unfold deleteGroups
  rw [mem_filter, decide_eq_true_iff]

include h in
/-- Deleting groups changes no state if no other group is a delta from one of them. -/
theorem Holds.deleteGroups (hedges : ∀ edge ∈ t.stateGroupEdges, edge.2 ∈ toDelete → edge.1 ∈ toDelete) :
    (t.deleteGroups toDelete).Holds lastId (states.eraseAll toDelete) := by
  refine ⟨h.forest.deleteGroups toDelete, fun group => ?_, fun group hmem => ?_, h.edge_le,
    fun row hmem => ?_, fun edge hmem hgroup => ?_, fun group stateDict hdict key => ?_⟩
  · rw [mem_deleteGroups, h.mem group, ← lookup_isSome, ← lookup_isSome, lookup_eraseAll]
    split <;> simp_all
  · exact h.group_le group (mem_deleteGroups.mp hmem).1
  · exact h.row_le row (mem_filter.mp hmem).1
  · obtain ⟨hgroup, hkept⟩ := mem_deleteGroups.mp hgroup
    exact mem_deleteGroups.mpr ⟨h.edge_mem edge hmem hgroup, fun hprev => hkept (hedges edge hmem hprev)⟩
  · obtain ⟨hkept, hdict⟩ := lookup_eraseAll_eq_some.mp hdict
    rw [← h.state group stateDict hdict key]
    -- the chain of a group that is kept consists of groups that are kept
    refine h.forest.lookup_state_congr (h.forest.deleteGroups toDelete) (S := (· ∉ toDelete))
      (fun edge hmem hkept hprev => hkept (hedges edge hmem hprev)) (fun edge _ => Iff.rfl)
      (fun row hkept => ?_) hkept key
    unfold StateTables.deleteGroups
    rw [mem_filter]
    exact and_iff_left (decide_eq_true hkept)

/-! ## The operations on the tables -/

theorem exists_admits_all : ∃ key, StateFilter.all.admits key = true :=
  ⟨(.create, ""), StateFilter.admits_all⟩

theorem IsForest.deDelta [DecidableEq ε] (h : t.IsForest) (sg : ℕ) :
    ∃ currState, deDelta engine t sg = .ok (t.replaceByFullState sg currState) ∧
      ∀ key, currState.lookup key = (t.state sg).lookup key := by
  obtain ⟨results, hwalk, hanswers⟩ := getStateGroupsFromGroupsTxn_answers h exists_admits_all engine [sg]
  obtain ⟨currState, hlookup⟩ := exists_lookup ((hanswers.mem sg).mpr mem_cons_self)
  refine ⟨currState, ?_, hanswers.lookup sg currState hlookup⟩
  unfold Synapse.StateGroups.deDelta
  rw [hwalk]
  dsimp only
  rw [hlookup]

theorem mem_remainingStateGroups : group ∈ t.remainingStateGroups order toDelete ↔
      (∃ edge ∈ t.stateGroupEdges, edge.2 ∈ toDelete ∧ edge.1 = group) ∧ group ∉ toDelete := by
  unfold remainingStateGroups
  rw [order.mem_order, mem_dedup, mem_filter, decide_eq_true_iff, mem_map]
  refine and_congr_left fun _ => exists_congr fun edge => ?_
  rw [mem_filter, decide_eq_true_iff, and_assoc]

/-- What the loop of a purge has done to the tables `t₀`. -/
structure DeDeltaed (t₀ : StateTables ε) (lastId : ℕ) (states : GroupStates ε) (done : List ℕ)
    (t : StateTables ε) : Prop where
  holds : t.Holds lastId states
  groups : t.stateGroups = t₀.stateGroups
  edges : ∀ edge, edge ∈ t.stateGroupEdges ↔ edge ∈ t₀.stateGroupEdges ∧ edge.1 ∉ done
  rows : ∀ row ∈ t.stateGroupsState, row ∈ t₀.stateGroupsState ∨ row.stateGroup ∈ done

variable {t₀ : StateTables ε}

theorem DeDeltaed.step [DecidableEq ε] {done : List ℕ}
    (h : DeDeltaed t₀ lastId states done t) (hpos : 0 < sg)
    (hle : sg ≤ lastId) : ∃ t', Synapse.StateGroups.deDelta engine t sg = .ok t' ∧
      DeDeltaed t₀ lastId states (done ++ [sg]) t' := by
  obtain ⟨currState, hok, hcurr⟩ := h.holds.forest.deDelta engine sg
  refine ⟨_, hok, h.holds.replaceByFullState hpos hle hcurr, h.groups, fun edge => ?_, fun row hmem => ?_⟩
  · rw [mem_replaceByFullState_edges, h.edges edge, mem_append, mem_singleton, not_or, and_assoc]
  · rcases mem_replaceByFullState_rows.mp hmem with ⟨hmem, _⟩ | ⟨hgroup, _⟩
    · exact (h.rows row hmem).imp_right (mem_append_left _)
    · exact .inr (mem_append_right _ (mem_singleton.mpr hgroup))

include h in
theorem Holds.deDelta [DecidableEq ε] (order : IterOrder)
    (toDelete : List ℕ) : ∃ t', (t.remainingStateGroups order toDelete).foldlM
        (Synapse.StateGroups.deDelta engine) t = .ok t' ∧
      DeDeltaed t lastId states (t.remainingStateGroups order toDelete) t' := by
  refine foldlM_ok_inv _ (fun done sg rest t' heq ht' => ?_)
    ⟨h, rfl, fun edge => (and_iff_left not_mem_nil).symm, fun row hmem => .inl hmem⟩
  have hmem : sg ∈ t.remainingStateGroups order toDelete := heq ▸ mem_append_cons_self
  obtain ⟨⟨edge, hedge, _, rfl⟩, _⟩ := mem_remainingStateGroups.mp hmem
  have hlt := h.forest.edge_lt edge hedge
  exact ht'.step engine (by omega) (h.edge_le edge hedge)

/-- Every other group with an edge to a deleted one has been de-deltaed before they are deleted. -/
theorem DeDeltaed.deleteGroups
    (h : DeDeltaed t₀ lastId states (t₀.remainingStateGroups order toDelete) t) :
    (t.deleteGroups toDelete).Holds lastId (states.eraseAll toDelete) := by
  refine h.holds.deleteGroups fun edge hmem hprev => ?_
  by_contra hkept
  obtain ⟨hold, hdone⟩ := (h.edges edge).mp hmem
  exact hdone (mem_remainingStateGroups.mpr ⟨⟨edge, hold, hprev, rfl⟩, hkept⟩)

variable {contexts : List (PersistedContext ε)} {context : PersistedContext ε}

theorem insertContexts_cons_state {delta : StateMap ε} (hstate : context.isState = true)
    (hdelta : context.stateDeltaDueToEvent = some delta) : t.insertContexts (context :: contexts) =
      (t.insertGroup context.stateGroupAfterEvent (some context.stateGroupBeforeEvent)
        delta).insertContexts contexts := by
  unfold insertContexts insertGroup
  simp [hstate, hdelta]

theorem insertContexts_cons_other (hstate : context.isState = false)
    (hdelta : context.stateDeltaDueToEvent = none ∨ context.stateDeltaDueToEvent = some ∅) :
    t.insertContexts (context :: contexts) = t.insertContexts contexts := by
  unfold insertContexts
  rcases hdelta with hdelta | hdelta
  · simp [hstate, hdelta]
  · have hrows : rowsFor context.stateGroupAfterEvent (∅ : StateMap ε) = [] := rfl
    simp [hstate, hdelta, hrows]

include h in
/-- A batch is one new group after the other. -/
theorem Holds.insertContexts {sgBefore : ℕ}
    (hstate : states.lookup sgBefore = some state) (events : List (BatchedEvent ε)) :
    (t.insertContexts (assignStateGroups lastId sgBefore events)).Holds
        (lastId + events.countP (·.stateKey.isSome))
        ((⟨states, lastId⟩ : AbstractStore ε).addChain state events).states ∧
      ((⟨states, lastId⟩ : AbstractStore ε).addChain state events).lastId =
        lastId + events.countP (·.stateKey.isSome) := by
  induction events generalizing t lastId states sgBefore state with
  | nil =>
    refine ⟨?_, rfl⟩
    have hnil : t.insertContexts [] = t := by simp [StateTables.insertContexts]
    exact hnil.symm ▸ h
  | cons event events ih =>
    unfold assignStateGroups AbstractStore.addChain
    cases hkey : event.stateKey with
    | none =>
      rw [insertContexts_cons_other rfl (event.noDelta hkey), countP_cons_of_neg (by simp [hkey])]
      exact ih h hstate
    | some key =>
      rw [insertContexts_cons_state rfl rfl, countP_cons_of_pos (by simp [hkey])]
      have hnew : (t.insertGroup (lastId + 1) (some sgBefore) (single key event.eventId)).Holds
          (lastId + 1) (states.insert (lastId + 1) (state.insert key event.eventId)) := by
        refine h.insertGroup (fun prev hprev => ?_) fun key' => ?_
        · rw [← some.inj hprev, h.mem]
          exact mem_of_lookup hstate
        · rw [bind_some, h.state sgBefore state hstate, lookup_single, lookup_insert_ite]
          split <;> rfl
      have hstep := ih hnew (lookup_insert _)
      rw [Nat.add_right_comm, Nat.add_assoc] at hstep
      exact hstep

theorem countHopsSqlite_ok (ht : t.IsForest) : ∀ {rounds : ℕ} {nextGroup : Option ℕ} (count : ℕ),
    (∀ group, nextGroup = some group → group < rounds) →
      ∃ hops, countHopsSqlite t rounds nextGroup count = .ok hops
  | _, none, count, _ => ⟨count, by rw [countHopsSqlite]⟩
  | 0, some group, _, h => absurd (h group rfl) (Nat.not_lt_zero group)
  | rounds + 1, some group, count, h => by
    rw [countHopsSqlite]
    split
    · exact ⟨count, rfl⟩
    · refine countHopsSqlite_ok ht _ fun prev hprev => ?_
      have := ht.prevStateGroup_lt group prev hprev
      have := h group rfl
      omega

theorem IsForest.countStateGroupHopsTxn (ht : t.IsForest) (group : ℕ) :
    ∃ hops, countStateGroupHopsTxn engine t group = .ok hops := by
  cases engine with
  | postgres =>
    have hlt : ∀ group prev, prev ∈ t.prevStateGroups group → prev < group := fun group prev h =>
      (ht.edge_lt _ (mem_prevStateGroups.mp h)).2
    have hstart : ∀ group' ∈ [group], group' < group + 1 := by simp
    obtain ⟨rows, hrows, _⟩ := withRecursive_of_lt hlt hstart
    refine ⟨rows.length, ?_⟩
    unfold Synapse.StateGroups.countStateGroupHopsTxn
    rw [hrows]
  | sqlite =>
    refine countHopsSqlite_ok ht 0 fun group' h => ?_
    rw [← some.inj h]
    exact Nat.lt_succ_self group

end StateTables

/-! ## The walk in chunks -/

variable {f : StateFilter}

theorem WalkAnswers.update {state : ℕ → StateMap ε} {groups chunk : List ℕ}
    {results res : GroupStates ε} (h : WalkAnswers state groups f results)
    (hres : WalkAnswers state chunk f res) :
    WalkAnswers state (groups ++ chunk) f (results.update res.items) := by
  refine ⟨fun group => ?_, fun group stateDict hlookup => ?_⟩
  · rw [mem_update, map_fst_items, ← AList.mem_keys, mem_append, h.mem group, hres.mem group, or_comm]
  · rw [lookup_update_items, Option.or_eq_some_iff] at hlookup
    rcases hlookup with hlookup | ⟨_, hlookup⟩
    · exact hres.lookup group stateDict hlookup
    · exact h.lookup group stateDict hlookup

theorem getStateGroupsFromGroups_answers [DecidableEq ε] {t : StateTables ε} (ht : t.IsForest)
    (hf : ∃ key, f.admits key = true) (groups : List ℕ) :
    ∃ results, getStateGroupsFromGroups engine t groups f = .ok results ∧
      WalkAnswers t.state groups f results := by
  obtain ⟨results, hok, hanswers⟩ : ∃ results, getStateGroupsFromGroups engine t groups f = .ok results ∧
      WalkAnswers t.state (batchIter 100 groups).flatten f results := by
    refine foldlM_ok_inv (I := fun done results => WalkAnswers t.state done.flatten f results) _
      (fun done chunk rest results _ h => ?_) ?_
    · obtain ⟨res, hres, hanswers⟩ := getStateGroupsFromGroupsTxn_answers ht hf engine chunk
      refine ⟨results.update res.items, by rw [hres]; rfl, ?_⟩
      rw [flatten_append, flatten_singleton]
      exact h.update hanswers
    · exact ⟨fun group => iff_of_false (notMem_empty _) not_mem_nil, nofun⟩
  rw [flatten_batchIter (by decide)] at hanswers
  exact ⟨results, hok, hanswers⟩

/-! ## Refinement -/

/-- The tables and the caches hold the states of the groups that exist. -/
structure Refines (s : StateGroupStore ε) (a : AbstractStore ε) : Prop where
  lastId : s.lastId = a.lastId
  tables : s.tables.Holds s.lastId a.states
  caches : ∀ group stateDict, a.states.lookup group = some stateDict → s.caches.AgreeWith group stateDict
  /-- Nothing is cached about a group that is still to come. -/
  fresh : ∀ group stateDict, s.lastId < group → s.caches.AgreeWith group stateDict

variable {s : StateGroupStore ε} {a : AbstractStore ε}

theorem refines_init : Refines (StateGroupStore.init : StateGroupStore ε) AbstractStore.init where
  lastId := rfl
  tables := StateTables.holds_init
  caches _ _ h := nomatch h
  fresh _ _ _ := ⟨DictionaryCache.empty_agreesWith, DictionaryCache.empty_agreesWith⟩

variable {prevGroup : ℕ} {prevState : StateMap ε}

/-- A group that is stored as a delta from one that exists. -/
theorem Refines.insertDelta (h : Refines s a) (hprev : a.states.lookup prevGroup = some prevState)
    (deltaIds : StateMap ε) : Refines { s with
      tables := s.tables.insertGroup (s.lastId + 1) (some prevGroup) deltaIds
      lastId := s.lastId + 1 } (a.add (prevState.update deltaIds.items)) := by
  refine ⟨congrArg (· + 1) h.lastId, ?_, fun group stateDict hlookup => ?_, fun group stateDict hlt => ?_⟩
  · show (s.tables.insertGroup _ _ _).Holds _ (a.states.insert (a.lastId + 1) _)
    rw [← h.lastId]
    refine h.tables.insertGroup (fun prev heq => ?_) fun key => ?_
    · rw [← some.inj heq, h.tables.mem]
      exact mem_of_lookup hprev
    · rw [bind_some, lookup_update_items, h.tables.state prevGroup prevState hprev]
  · rcases lookup_insert_cases hlookup with ⟨rfl, rfl⟩ | ⟨_, hlookup⟩
    · exact h.fresh _ _ (h.lastId ▸ Nat.lt_succ_self _)
    · exact h.caches group stateDict hlookup
  · exact h.fresh group stateDict (Nat.lt_of_succ_lt hlt)

theorem Refines.insertFull (h : Refines s a) {currentStateIds state : StateMap ε}
    (hstate : ∀ key, currentStateIds.lookup key = state.lookup key) :
    Refines (insertFullStateTxn s currentStateIds).2 (a.add state) := by
  refine ⟨congrArg (· + 1) h.lastId, ?_, fun group stateDict hlookup => ?_, fun group stateDict hlt => ?_⟩
  · show (s.tables.insertGroup _ none _).Holds _ (a.states.insert (a.lastId + 1) _)
    rw [← h.lastId]
    refine h.tables.insertGroup (fun prev heq => absurd heq (Option.some_ne_none prev).symm) fun key => ?_
    rw [Option.bind_none, Option.or_none, hstate key]
  · rcases lookup_insert_cases hlookup with ⟨rfl, rfl⟩ | ⟨hne, hlookup⟩
    · exact (h.fresh _ _ (h.lastId ▸ Nat.lt_succ_self _)).prefill fun _ => hstate
    · exact (h.caches group stateDict hlookup).prefill fun heq =>
        absurd (heq.symm.trans (congrArg (· + 1) h.lastId)) hne
  · exact (h.fresh group stateDict (Nat.lt_of_succ_lt hlt)).prefill fun heq =>
      absurd heq (Nat.ne_of_lt hlt)


/-- A previous group that exists: the group is stored as a delta, or in full if the chain is long. -/
theorem storeStateGroup_eq [DecidableEq ε] {prevGroup hops : ℕ} (hmem : prevGroup ∈ s.tables.stateGroups)
    (hhops : countStateGroupHopsTxn engine s.tables prevGroup = .ok hops) (deltaIds : StateMap ε)
    (currentStateIds : Option (StateMap ε)) :
    storeStateGroup engine s (some prevGroup) (some deltaIds) currentStateIds =
      if hops ≥ maxStateDeltaHops then do
        let (currentStateIds, s) ← loadCurrentState engine s prevGroup deltaIds currentStateIds
        .ok (insertFullStateTxn s currentStateIds)
      else .ok (s.lastId + 1, { s with
        tables := s.tables.insertGroup (s.lastId + 1) (some prevGroup) deltaIds
        lastId := s.lastId + 1 }) := by
  unfold storeStateGroup insertDeltaGroupTxn
  dsimp only
  rw [if_neg (not_not.mpr hmem), hhops]
  dsimp only
  split
  · rfl
  · rfl

section
variable {deltaIds : StateMap ε} [DecidableEq ε] (h : Refines s a) {currentStateIds : Option (StateMap ε)}
  (hprev : a.states.lookup prevGroup = some prevState)
  (hconsistent : ∀ current, currentStateIds = some current →
    ∀ key, current.lookup key = (prevState.update deltaIds.items).lookup key)
include h hprev hconsistent

/-- Loading the state of the previous group, possibly from the caches. -/
theorem Refines.loadCurrentState :
    ∃ current caches, loadCurrentState engine s prevGroup deltaIds currentStateIds =
        .ok (current, { s with caches := caches }) ∧ Refines { s with caches := caches } a ∧
      ∀ key, current.lookup key = (prevState.update deltaIds.items).lookup key := by
  cases currentStateIds with
  | some current => exact ⟨current, s.caches, rfl, h, hconsistent current rfl⟩
  | none =>
    have hcaches : ∀ group ∈ [prevGroup], s.caches.AgreeWith group ((fun _ => prevState) group) := by
      intro group hmem
      rw [mem_singleton.mp hmem]
      exact h.caches prevGroup prevState hprev
    have hwalk : ∀ asked, (∀ group ∈ asked, group ∈ [prevGroup]) → ∃ answer,
        getStateGroupsFromGroups engine s.tables asked (StateFilter.all.returnExpanded) = .ok answer ∧
          WalkAnswers (fun _ => prevState) asked StateFilter.all.returnExpanded answer := by
      intro asked hasked
      obtain ⟨answer, hok, hanswers⟩ := getStateGroupsFromGroups_answers engine
        h.tables.forest StateTables.exists_admits_all asked
      refine ⟨answer, hok, hanswers.mem, fun group stateDict hlookup key => ?_⟩
      have hgroup := hasked group ((hanswers.mem group).mp (mem_of_lookup hlookup))
      rw [hanswers.lookup group stateDict hlookup, StateFilter.lookup_filterState,
        StateFilter.lookup_filterState, mem_singleton.mp hgroup, h.tables.state prevGroup prevState hprev]
      rfl
    obtain ⟨groups, caches, hok, hexact, hkeep⟩ := getStateForGroups_ok hcaches hwalk
    obtain ⟨current, hlookup, hcurrent⟩ := hexact prevGroup mem_cons_self
    refine ⟨current.update deltaIds.items, caches, ?_, ?_, fun key => ?_⟩
    · unfold Synapse.StateGroups.loadCurrentState
      rw [hok]
      dsimp only
      rw [hlookup]
    · refine ⟨h.lastId, h.tables, fun group stateDict hdict => ?_, fun group stateDict hlt => ?_⟩
      · refine hkeep group stateDict (fun hmem => ?_) (h.caches group stateDict hdict)
        rw [mem_singleton.mp hmem] at hdict
        exact some.inj (hprev.symm.trans hdict)
      · refine hkeep group stateDict (fun hmem => ?_) (h.fresh group stateDict hlt)
        -- the previous group exists, so it is not one that is still to come
        have hgroup := (h.tables.mem prevGroup).mpr (mem_of_lookup hprev)
        have hle := (h.tables.group_le prevGroup hgroup).2
        rw [mem_singleton.mp hmem] at hlt
        exact absurd hle (Nat.not_le_of_lt hlt)
    · rw [lookup_update_items, lookup_update_items, hcurrent key]
      rfl

theorem Refines.storeStateGroup :
    ∃ group s', storeStateGroup engine s (some prevGroup) (some deltaIds) currentStateIds =
        .ok (group, s') ∧ Refines s' (a.add (prevState.update deltaIds.items)) := by
  have hmem := (h.tables.mem prevGroup).mpr (mem_of_lookup hprev)
  obtain ⟨hops, hhops⟩ := h.tables.forest.countStateGroupHopsTxn engine prevGroup
  rw [storeStateGroup_eq _ hmem hhops]
  split
  · obtain ⟨current, caches, hload, hs', hcurrent⟩ := h.loadCurrentState engine hprev hconsistent
    refine ⟨(insertFullStateTxn { s with caches := caches } current).1,
      (insertFullStateTxn { s with caches := caches } current).2, ?_, hs'.insertFull hcurrent⟩
    rw [hload]
    rfl
  · exact ⟨_, _, rfl, h.insertDelta hprev deltaIds⟩

end

/-- Ids are given in order, and a group that exists keeps its state. -/
structure AbstractStore.Grows (a a' : AbstractStore ε) : Prop where
  lastId_le : a.lastId ≤ a'.lastId
  lookup : ∀ {group stateDict}, group ≤ a.lastId → a'.states.lookup group = some stateDict →
    a.states.lookup group = some stateDict

namespace AbstractStore
variable {a b c : AbstractStore ε}

theorem Grows.refl (a : AbstractStore ε) : Grows a a := ⟨le_rfl, fun _ h => h⟩

theorem Grows.trans (h : Grows a b) (h' : Grows b c) : Grows a c :=
  ⟨h.lastId_le.trans h'.lastId_le, fun hle hlookup =>
    h.lookup hle (h'.lookup (hle.trans h.lastId_le) hlookup)⟩

theorem grows_add (state : StateMap ε) : Grows a (a.add state) := by
  refine ⟨Nat.le_succ _, fun hle hlookup => ?_⟩
  rcases lookup_insert_cases hlookup with ⟨heq, _⟩ | ⟨_, hlookup⟩
  · omega
  · exact hlookup

theorem grows_addChain (events : List (BatchedEvent ε)) :
    ∀ {a : AbstractStore ε} {state : StateMap ε}, Grows a (a.addChain state events) := by
  induction events with
  | nil => exact .refl _
  | cons event events ih =>
    intro a state
    unfold addChain
    split
    · exact ih
    · exact (grows_add _).trans ih

end AbstractStore

theorem Refines.storeStateDeltasForBatched (h : Refines s a)
    (hprev : a.states.lookup prevGroup = some prevState) (events : List (BatchedEvent ε)) :
    ∃ contexts s', storeStateDeltasForBatched s events prevGroup = .ok (contexts, s') ∧
      Refines s' (a.addChain prevState events) := by
  have hmem := (h.tables.mem prevGroup).mpr (mem_of_lookup hprev)
  obtain ⟨hholds, hlastId⟩ := h.tables.insertContexts hprev events
  rw [h.lastId] at hholds hlastId
  unfold Synapse.StateGroups.storeStateDeltasForBatched
  rw [if_neg (not_not.mpr hmem)]
  refine ⟨_, _, rfl, ?_, ?_, fun group stateDict hlookup => ?_, fun group stateDict hlt => ?_⟩
  · exact (congrArg (· + _) h.lastId).trans hlastId.symm
  · rw [h.lastId]
    exact hholds
  · rcases Nat.lt_or_ge a.lastId group with hlt | hle
    · exact h.fresh group stateDict (h.lastId ▸ hlt)
    · exact h.caches group stateDict ((AbstractStore.grows_addChain events).lookup hle hlookup)
  · exact h.fresh group stateDict (Nat.lt_of_le_of_lt (Nat.le_add_right _ _) hlt)

theorem Refines.purgeUnreferencedStateGroups [DecidableEq ε] (h : Refines s a)
    (order : IterOrder) (toDelete : List ℕ) :
    ∃ s', purgeUnreferencedStateGroups engine s order toDelete = .ok s' ∧
      Refines s' { a with states := a.states.eraseAll toDelete } := by
  obtain ⟨t', hok, hdeDeltaed⟩ := h.tables.deDelta engine order toDelete
  unfold Synapse.StateGroups.purgeUnreferencedStateGroups
  rw [hok]
  refine ⟨_, rfl, h.lastId, hdeDeltaed.deleteGroups, fun group stateDict hlookup => ?_, h.fresh⟩
  exact h.caches group stateDict (lookup_eraseAll_eq_some.mp hlookup).2

theorem storeStateGroup_unpersisted [DecidableEq ε]
    (hmem : prevGroup ∉ s.tables.stateGroups) (deltaIds : StateMap ε)
    (currentStateIds : Option (StateMap ε)) :
    storeStateGroup engine s (some prevGroup) (some deltaIds) currentStateIds =
      .error (.unpersistedPrevGroup prevGroup) := by
  unfold storeStateGroup insertDeltaGroupTxn
  dsimp only
  rw [if_pos hmem]
  rfl

variable {op : Operation ε}

/-- Every operation does to the tables and caches what it does to the abstract store. -/
theorem Refines.step [DecidableEq ε] (h : Refines s a) (hconsistent : op.Consistent a) :
    Refines (s.step engine op) (a.step op) := by
  have hunpersisted : ∀ {prevGroup}, a.states.lookup prevGroup = none →
      prevGroup ∉ s.tables.stateGroups := fun hnone hmem =>
    lookup_eq_none.mp hnone ((h.tables.mem _).mp hmem)
  cases op with
  | storeStateGroup prevGroup deltaIds currentStateIds =>
    match prevGroup, deltaIds, currentStateIds with
    | none, _, none => exact h
    | none, _, some currentStateIds => exact h.insertFull fun _ => rfl
    | some _, none, _ => exact h
    | some prevGroup, some deltaIds, currentStateIds =>
      unfold StateGroupStore.step AbstractStore.step
      dsimp only
      cases hprev : a.states.lookup prevGroup with
      | none =>
        rw [storeStateGroup_unpersisted _ (hunpersisted hprev)]
        exact h
      | some prevState =>
        -- the delta and the full state, if given, describe the same state
        have hcurrent : ∀ current, currentStateIds = some current →
            ∀ key, current.lookup key = (prevState.update deltaIds.items).lookup key := by
          intro current hcurrent
          subst hcurrent
          exact hconsistent prevState hprev
        obtain ⟨group, s', hok, hs'⟩ := h.storeStateGroup engine hprev hcurrent
        rw [hok]
        exact hs'
  | storeStateDeltasForBatched events prevGroup =>
    unfold StateGroupStore.step AbstractStore.step
    dsimp only
    cases hprev : a.states.lookup prevGroup with
    | none =>
      have herror : Synapse.StateGroups.storeStateDeltasForBatched s events prevGroup =
          .error (.unpersistedPrevGroup prevGroup) := if_pos (hunpersisted hprev)
      rw [herror]
      exact h
    | some prevState =>
      obtain ⟨contexts, s', hok, hs'⟩ := h.storeStateDeltasForBatched hprev events
      rw [hok]
      exact hs'
  | purgeUnreferencedStateGroups order toDelete =>
    obtain ⟨s', hok, hs'⟩ := h.purgeUnreferencedStateGroups engine order toDelete
    unfold StateGroupStore.step AbstractStore.step
    dsimp only
    rw [hok]
    exact hs'

/-! ## Runs -/

/-- Every operation of the list is consistent when its turn comes. -/
def AllConsistent : AbstractStore ε → List (Operation ε) → Prop
  | _, [] => True
  | a, op :: ops => op.Consistent a ∧ AllConsistent (a.step op) ops

theorem Refines.run [DecidableEq ε] (ops : List (Operation ε)) :
    ∀ {s : StateGroupStore ε} {a : AbstractStore ε}, Refines s a → AllConsistent a ops →
      Refines (ops.foldl (StateGroupStore.step engine) s) (ops.foldl AbstractStore.step a) := by
  induction ops with
  | nil => exact fun h _ => h
  | cons op ops ih => exact fun h hconsistent => ih (h.step engine hconsistent.1) hconsistent.2

theorem AllConsistent.left : ∀ {ops more : List (Operation ε)} {a : AbstractStore ε},
    AllConsistent a (ops ++ more) → AllConsistent a ops
  | [], _, _, _ => trivial
  | _ :: _, _, _, h => ⟨h.1, AllConsistent.left h.2⟩

theorem AbstractStore.grows_step (a : AbstractStore ε) (op : Operation ε) : Grows a (a.step op) := by
  unfold AbstractStore.step
  split
  · exact .refl a
  · exact grows_add _
  · exact .refl a
  · split
    · exact .refl a
    · exact grows_add _
  · split
    · exact .refl a
    · exact grows_addChain _
  · exact ⟨le_rfl, fun _ h => (lookup_eraseAll_eq_some.mp h).2⟩

theorem AbstractStore.grows_run : ∀ (ops : List (Operation ε)) {a : AbstractStore ε},
    Grows a (ops.foldl AbstractStore.step a)
  | [], a => .refl a
  | op :: ops, a => (a.grows_step op).trans (grows_run ops)

/-- A group that exists has the state that it was stored with: the state of its previous group with the
delta over it, or the full state that was given.  No operation changes it, as long as the group is not
purged itself. -/
theorem storedState_unchanged [DecidableEq ε] (ops more : List (Operation ε))
    (h : AllConsistent .init (ops ++ more)) :
    (∀ group, group ∈ (StateGroupStore.run engine ops).tables.stateGroups ↔
      group ∈ (AbstractStore.run ops).states) ∧
    (∀ group stateDict, (AbstractStore.run ops).states.lookup group = some stateDict →
      ∀ key, ((StateGroupStore.run engine ops).tables.state group).lookup key = stateDict.lookup key) ∧
    ∀ group ∈ (StateGroupStore.run engine ops).tables.stateGroups,
      group ∈ (StateGroupStore.run engine (ops ++ more)).tables.stateGroups →
      ∀ key, ((StateGroupStore.run engine (ops ++ more)).tables.state group).lookup key =
        ((StateGroupStore.run engine ops).tables.state group).lookup key := by
  have hops : Refines (StateGroupStore.run engine ops) (AbstractStore.run ops) :=
    refines_init.run engine ops h.left
  have hmore : Refines (StateGroupStore.run engine (ops ++ more)) (AbstractStore.run (ops ++ more)) :=
    refines_init.run engine (ops ++ more) h
  refine ⟨hops.tables.mem, hops.tables.state, fun group hmem hmem' key => ?_⟩
  obtain ⟨stateDict, hlookup⟩ := exists_lookup ((hmore.tables.mem group).mp hmem')
  have hle : group ≤ (AbstractStore.run ops).lastId := hops.lastId ▸ (hops.tables.group_le group hmem).2
  have hlookup' : (AbstractStore.run ops).states.lookup group = some stateDict := by
    refine (AbstractStore.grows_run more).lookup hle ?_
    rw [← hlookup, AbstractStore.run, AbstractStore.run, foldl_append]
  rw [hmore.tables.state group stateDict hlookup key, hops.tables.state group stateDict hlookup' key]

/-- A full group, and a topic and a member as deltas. -/
def topicOperations : List (Operation String) :=
  [.storeStateGroup none none (some (single (.create, "") "$create")),
    .storeStateGroup (some 1) (some (single (.other "m.room.topic", "") "$topic")) none,
    .storeStateGroup (some 2) (some (single (.member, "@alice") "$join")) none]

/-- Purging the group in the middle. -/
theorem storedState_unchanged_topic :
    let ops := topicOperations ++ [.purgeUnreferencedStateGroups .insertion [2]]
    AllConsistent .init ops ∧ (StateGroupStore.run .sqlite ops).tables.stateGroups = [1, 3] ∧
    ∀ key, ((StateGroupStore.run .sqlite ops).tables.state 3).lookup key =
      ((StateGroupStore.run .sqlite topicOperations).tables.state 3).lookup key := by
  have hconsistent : AllConsistent .init
      (topicOperations ++ [.purgeUnreferencedStateGroups .insertion [2]]) :=
    ⟨trivial, trivial, trivial, trivial, trivial⟩
  exact ⟨hconsistent, by decide +kernel, (storedState_unchanged .sqlite topicOperations
    [.purgeUnreferencedStateGroups .insertion [2]] hconsistent).2.2 3 (by decide +kernel)
    (by decide +kernel)⟩

end Synapse.StateGroups
