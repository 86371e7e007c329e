import Synapse.StateGroups.Cache
import Synapse.Util.Select

/-!
# Walking the state group tables

`_get_state_groups_from_groups_txn` (`synapse/storage/databases/state/bg_updates.py`) reads the state of
groups from the tables `state_group_edges` and `state_groups_state`.  On Postgres a recursive query
collects the groups of the chain and `DISTINCT ON`, sorted by descending group, takes the nearest row of
each key; a filter with few conditions becomes one such query for each condition.  On SQLite a loop
follows the chain and stops when it has as many entries as the filter can admit.

Both give the state of the group, the deltas along its chain laid over each other, restricted to the
filter.  What the Postgres query rests on is that previous groups have smaller ids: the greatest id of
the chain that has a key is the nearest.  What the early exit rests on is that the entries found are
among the keys that the filter names, so that there are as many only if all are there.

The filter has to admit a key.  One that names types with no state keys gives an empty `WHERE` clause
on SQLite, which selects all rows, and an empty query on Postgres.
-/

namespace Synapse.StateGroups

open Synapse.Util Synapse.State List AList
open StateFilter (admits lookup_filterState ofTypes)
open Dict (exists_lookup mem_items mem_of_lookup ofKeys single)

variable {ε : Type}

/-! ## Tables -/

/-- A row of `state_groups_state`; the `room_id` is left out. -/
structure StateRow (ε : Type) where
  stateGroup : ℕ
  key : StateKey
  eventId : ε
  deriving DecidableEq

structure StateTables (ε : Type) where
  /-- The ids of `state_groups`. -/
  stateGroups : List ℕ
  /-- The rows `(state_group, prev_state_group)`. -/
  stateGroupEdges : List (ℕ × ℕ)
  stateGroupsState : List (StateRow ε)

namespace StateTables
variable (t : StateTables ε) (group : ℕ)

/-- `SELECT prev_state_group FROM state_group_edges WHERE state_group = ?`. -/
def prevStateGroups : List ℕ := (t.stateGroupEdges.filter fun edge => edge.1 = group).map (·.2)

/-- `simple_select_one_onecol_txn` for the previous group. -/
def prevStateGroup : Option ℕ := (t.prevStateGroups group).head?

def rowsOf : List (StateRow ε) := t.stateGroupsState.filter fun row => row.stateGroup = group

def delta : StateMap ε := Dict.update ∅ ((t.rowsOf group).map fun row => (row.key, row.eventId))

/-- The state of a group: the deltas along the chain of previous groups, nearest first. -/
def state : StateMap ε := chainState t.prevStateGroup t.delta group

/-- The groups form a forest whose edges go to smaller ids, and no group has two rows for a key.  Ids
are positive, as those that `state_group_id_seq` gives. -/
structure IsForest (t : StateTables ε) : Prop where
  edge_lt : ∀ edge ∈ t.stateGroupEdges, 0 < edge.2 ∧ edge.2 < edge.1
  edge_unique : (t.stateGroupEdges.map (·.1)).Nodup
  row_unique : (t.stateGroupsState.map fun row => (row.stateGroup, row.key)).Nodup
  row_pos : ∀ row ∈ t.stateGroupsState, 0 < row.stateGroup

end StateTables

/-! ## Conditions -/

/-- A disjunct of a `WHERE` clause. -/
inductive SqlCondition where
  /-- `1 = 2` -/
  | never
  /-- `type = ?` -/
  | typeIs (type : EventType)
  /-- `type = ? AND state_key = ?` -/
  | typeAndKey (type : EventType) (stateKey : String)
  /-- `type NOT IN (…)` -/
  | typeNotIn (types : List EventType)
  deriving DecidableEq

def SqlCondition.holds (key : StateKey) : SqlCondition → Bool
  | .never => false
  | .typeIs type => key.1 = type
  | .typeAndKey type stateKey => key = (type, stateKey)
  | .typeNotIn types => key.1 ∉ types

/-- The clauses for each type and state key, as in `make_sql_filter_clause` and in the list of
conditions of the Postgres query. -/
def filterConditions (f : StateFilter) : List SqlCondition :=
  f.types.items.flatMap fun (type, stateKeys) =>
    match stateKeys with
    | none => [.typeIs type]
    | some stateKeys => stateKeys.1.map (.typeAndKey type)

/-- `make_sql_filter_clause`, as the list of its disjuncts.  No disjuncts are the empty clause. -/
def makeSqlFilterClause (f : StateFilter) : List SqlCondition :=
  if f.isFull then []
  else if !f.includeOthers && f.types.items.isEmpty then [.never]
  else filterConditions f ++ if f.includeOthers then [.typeNotIn f.types.keys] else []

/-- `AND (…)`, which is only appended if the clause is not empty. -/
def whereClause (conditions : List SqlCondition) (key : StateKey) : Bool :=
  conditions.isEmpty || conditions.any (SqlCondition.holds key)

/-! ## Walks -/

inductive DatabaseEngine where
  | postgres
  | sqlite
  deriving DecidableEq

inductive WalkError where
  /-- The query has no `SELECT` after the common table expression. -/
  | syntaxError
  /-- The chain has a cycle. -/
  | doesNotEnd
  deriving DecidableEq

/-- `SELECT DISTINCT ON (type, state_key) type, state_key, event_id FROM state_groups_state`, for the
groups of the chain and the keys of the `WHERE` clause, `ORDER BY type, state_key, state_group DESC`. -/
def selectDistinct (t : StateTables ε) (sgs : List ℕ) (condition : StateKey → Bool) :
    List (StateKey × ε) :=
  (distinctOn StateRow.key StateRow.stateGroup
    (t.stateGroupsState.filter fun row => row.stateGroup ∈ sgs && condition row.key)).map fun row =>
      (row.key, row.eventId)

def useConditionOptimization (f : StateFilter) : Bool := !f.includeOthers && !f.isFull

/-- `overall_select_clause`, over the groups of the chain. -/
def overallSelect [DecidableEq ε] (t : StateTables ε) (f : StateFilter) (sgs : List ℕ) :
    Except WalkError (List (StateKey × ε)) :=
  if useConditionOptimization f && (filterConditions f).length < 10 then
    if (filterConditions f).isEmpty then .error .syntaxError
    else .ok ((filterConditions f).flatMap fun condition =>
      selectDistinct t sgs fun key => condition.holds key).dedup
  else .ok (selectDistinct t sgs (whereClause (makeSqlFilterClause f)))

/-- The rows that the Postgres query returns for a group. -/
def queryPostgres [DecidableEq ε] (t : StateTables ε) (f : StateFilter) (group : ℕ) :
    Except WalkError (List (StateKey × ε)) :=
  match withRecursive t.prevStateGroups (group + 1) [group] with
  | none => .error .doesNotEnd
  | some sgs => overallSelect t f sgs

/-- `results[group].update(…)` with the rows of one group whose key is not there yet. -/
def addRows (result : StateMap ε) (rows : List (StateRow ε)) : StateMap ε := rows.foldl (fun result row =>
    if row.key ∈ result then result else result.insert row.key row.eventId) result

/-- `while next_group`; `rounds` bounds the length of the chain. -/
def walkSqlite (t : StateTables ε) (f : StateFilter) :
    ℕ → Option ℕ → StateMap ε → Except WalkError (StateMap ε)
  | _, none, result => .ok result
  | 0, some nextGroup, result => if nextGroup = 0 then .ok result else .error .doesNotEnd
  | rounds + 1, some nextGroup, result =>
    if nextGroup = 0 then .ok result
    else
      let result := addRows result
        ((t.rowsOf nextGroup).filter fun row => whereClause (makeSqlFilterClause f) row.key)
      if f.maxEntriesReturned = some result.keys.length then .ok result
      else walkSqlite t f rounds (t.prevStateGroup nextGroup) result

/-- The loop body for one group, from what `results[group]` is. -/
def walkGroup [DecidableEq ε] (engine : DatabaseEngine) (t : StateTables ε) (f : StateFilter) (group : ℕ)
    (result : StateMap ε) : Except WalkError (StateMap ε) :=
  match engine with
  | .postgres => do
    let rows ← queryPostgres t f group
    .ok (result.update rows)
  | .sqlite => walkSqlite t f (group + 1) (some group) result

def getStateGroupsFromGroupsTxn [DecidableEq ε] (engine : DatabaseEngine) (t : StateTables ε)
    (groups : List ℕ) (f : StateFilter) : Except WalkError (GroupStates ε) :=
  groups.foldlM (fun results group => do
      let result ← walkGroup engine t f group (results.getD group ∅)
      .ok (results.insert group result))
    (ofKeys groups fun _ => ∅)

/-! ## What the tables hold -/

namespace StateTables
variable {t : StateTables ε} {group prev : ℕ}

theorem mem_prevStateGroups :
    prev ∈ t.prevStateGroups group ↔ (group, prev) ∈ t.stateGroupEdges := by
  unfold prevStateGroups
  rw [mem_map]
  constructor
  · intro h
    obtain ⟨⟨group', prev'⟩, hmem, rfl⟩ := h
    obtain ⟨hedge, hgroup⟩ := mem_filter.mp hmem
    obtain rfl : group' = group := of_decide_eq_true hgroup
    exact hedge
  · intro h
    exact ⟨(group, prev), mem_filter.mpr ⟨h, decide_eq_true rfl⟩, rfl⟩

theorem mem_rowsOf {group : ℕ} {row : StateRow ε} :
    row ∈ t.rowsOf group ↔ row ∈ t.stateGroupsState ∧ row.stateGroup = group := by
  unfold rowsOf
  rw [mem_filter, decide_eq_true_iff]

variable (ht : t.IsForest)
include ht

theorem IsForest.prevStateGroup_eq_some :
    t.prevStateGroup group = some prev ↔ (group, prev) ∈ t.stateGroupEdges := by
  rw [← mem_prevStateGroups]
  refine ⟨mem_of_mem_head?, fun h => ?_⟩
  -- there is only one edge
  obtain ⟨prev', hprev'⟩ := Option.ne_none_iff_exists'.mp (mt head?_eq_none_iff.mp (ne_nil_of_mem h))
  have hmem := mem_prevStateGroups.mp (mem_of_mem_head? hprev')
  have heq := inj_on_of_nodup_map ht.edge_unique (mem_prevStateGroups.mp h) hmem rfl
  rw [(Prod.mk.inj heq).2]
  exact hprev'

theorem IsForest.prevStateGroup_lt (group prev : ℕ)
    (h : t.prevStateGroup group = some prev) : prev < group :=
  (ht.edge_lt _ (ht.prevStateGroup_eq_some.mp h)).2

/-- Two rows of a group for the same key are the same row. -/
theorem IsForest.row_eq {row row' : StateRow ε} (h : row ∈ t.stateGroupsState)
    (h' : row' ∈ t.stateGroupsState) (hgroup : row.stateGroup = row'.stateGroup)
    (hkey : row.key = row'.key) : row = row' :=
  inj_on_of_nodup_map ht.row_unique h h' (Prod.ext hgroup hkey)

theorem IsForest.lookup_delta {group : ℕ} {key : StateKey} {eventId : ε} :
    (t.delta group).lookup key = some eventId ↔ ⟨group, key, eventId⟩ ∈ t.stateGroupsState := by
  have hmem : ∀ key eventId, (key, eventId) ∈ (t.rowsOf group).map (fun row => (row.key, row.eventId)) ↔
      ⟨group, key, eventId⟩ ∈ t.stateGroupsState := by
    intro key eventId
    rw [mem_map]
    constructor
    · intro h
      obtain ⟨row, hrow, heq⟩ := h
      obtain ⟨hstate, rfl⟩ := mem_rowsOf.mp hrow
      obtain ⟨rfl, rfl⟩ := Prod.mk.inj heq
      exact hstate
    · exact fun h => ⟨⟨group, key, eventId⟩, mem_rowsOf.mpr ⟨h, rfl⟩, rfl⟩
  unfold delta
  rw [Dict.lookup_update_of_functional, hmem]
  · simp
  · intro key eventId eventId' h h'
    have heq := ht.row_eq ((hmem _ _).mp h) ((hmem _ _).mp h') rfl rfl
    exact congrArg StateRow.eventId heq

theorem IsForest.lookup_state (group : ℕ) (key : StateKey) :
    (t.state group).lookup key = ((t.delta group).lookup key).or
      ((t.prevStateGroup group).bind fun prev => (t.state prev).lookup key) :=
  lookup_chainState ht.prevStateGroup_lt group key

end StateTables

/-! ## What the conditions select -/

variable {f : StateFilter} {key : StateKey}

/-- The conditions for the types of the filter select the keys of these types that it admits. -/
theorem any_filterConditions : (filterConditions f).any (SqlCondition.holds key) = true ↔
      key.1 ∈ f.types ∧ f.admits key = true := by
  rw [any_eq_true]
  constructor
  · intro h
    obtain ⟨condition, hmem, hholds⟩ := h
    obtain ⟨⟨type, stateKeys⟩, hitem, hcondition⟩ := mem_flatMap.mp hmem
    have hlookup := mem_items.mp hitem
    cases stateKeys with
    | none =>
      obtain rfl := mem_singleton.mp hcondition
      obtain rfl : key.1 = type := of_decide_eq_true hholds
      refine ⟨mem_of_lookup hlookup, ?_⟩
      unfold admits
      rw [hlookup]
    | some stateKeys =>
      obtain ⟨stateKey, hkey, rfl⟩ := mem_map.mp hcondition
      obtain rfl : key = (type, stateKey) := of_decide_eq_true hholds
      refine ⟨mem_of_lookup hlookup, ?_⟩
      exact StateFilter.admits_of_mem_concreteTypes
        (StateFilter.mem_concreteTypes.mpr ⟨stateKeys, hlookup, hkey⟩)
  · intro h
    obtain ⟨hmem, hadmits⟩ := h
    obtain ⟨stateKeys, hlookup⟩ := exists_lookup hmem
    unfold admits at hadmits
    rw [hlookup] at hadmits
    have hitem := mem_items.mpr hlookup
    cases stateKeys with
    | none =>
      refine ⟨.typeIs key.1, mem_flatMap.mpr ⟨_, hitem, mem_singleton.mpr rfl⟩, ?_⟩
      exact decide_eq_true rfl
    | some stateKeys =>
      refine ⟨.typeAndKey key.1 key.2, mem_flatMap.mpr ⟨_, hitem, ?_⟩, decide_eq_true rfl⟩
      exact mem_map.mpr ⟨key.2, of_decide_eq_true hadmits, rfl⟩

/-- A filter that does not include the other types admits only keys of its own types. -/
theorem mem_types_of_admits (hothers : f.includeOthers = false) (h : f.admits key = true) :
    key.1 ∈ f.types := by
  by_contra hmem
  unfold admits at h
  rw [lookup_eq_none.mpr hmem, hothers] at h
  exact nomatch h

theorem filterConditions_ne_nil (hothers : f.includeOthers = false)
    (hf : ∃ key, f.admits key = true) : filterConditions f ≠ [] := by
  obtain ⟨key, hadmits⟩ := hf
  intro hnil
  have hany := any_filterConditions.mpr ⟨mem_types_of_admits hothers hadmits, hadmits⟩
  rw [hnil] at hany
  exact nomatch hany

/-- The clause selects what the filter admits, if it admits anything. -/
theorem whereClause_makeSqlFilterClause (hf : ∃ key, f.admits key = true) (key : StateKey) :
    whereClause (makeSqlFilterClause f) key = f.admits key := by
  unfold makeSqlFilterClause
  split
  next hfull => rw [StateFilter.admits_of_isFull hfull]; rfl
  next hfull =>
    cases hothers : f.includeOthers with
    | false =>
      have hne := filterConditions_ne_nil hothers hf
      have htypes : f.types.items.isEmpty = false := by
        obtain ⟨key', hadmits⟩ := hf
        obtain ⟨stateKeys, hlookup⟩ := exists_lookup (mem_types_of_admits hothers hadmits)
        exact isEmpty_eq_false_iff_exists_mem.mpr ⟨_, mem_items.mpr hlookup⟩
      have hclause : whereClause (filterConditions f) key = true ↔ f.admits key = true := by
        unfold whereClause
        rw [isEmpty_eq_false_iff.mpr hne, Bool.false_or, any_filterConditions]
        exact and_iff_right_of_imp (mem_types_of_admits hothers)
      simpa [htypes] using hclause
    | true =>
      have hclause : whereClause (filterConditions f ++ [.typeNotIn f.types.keys]) key = true ↔
          f.admits key = true := by
        unfold whereClause
        rw [isEmpty_eq_false_iff.mpr (by simp), Bool.false_or, any_append,
          Bool.or_eq_true, any_filterConditions]
        by_cases hmem : key.1 ∈ f.types
        · simp [SqlCondition.holds, hmem, ← AList.mem_keys]
        · have hadmits : f.admits key = true := by
            unfold admits
            rw [lookup_eq_none.mpr hmem]
            exact hothers
          simp [SqlCondition.holds, hmem, ← AList.mem_keys, hadmits]
      simpa using hclause

/-! ## The Postgres query -/

section
variable {t : StateTables ε} {f : StateFilter} {group : ℕ} {sgs : List ℕ} {eventId : ε} {result : StateMap ε}
  (ht : t.IsForest) (hf : ∃ key, f.admits key = true)

include ht in
/-- Among the rows of the chain of a group, `DISTINCT ON` takes the nearest of each key. -/
theorem mem_selectDistinct
    (hsgs : ∀ group', group' ∈ sgs ↔ InChain t.prevStateGroup group group')
    {condition : StateKey → Bool} : (key, eventId) ∈ selectDistinct t sgs condition ↔
      condition key = true ∧ (t.state group).lookup key = some eventId := by
  have hrow : ∀ row, row ∈ (t.stateGroupsState.filter fun row =>
      row.stateGroup ∈ sgs && condition row.key) ↔ row ∈ t.stateGroupsState ∧
        InChain t.prevStateGroup group row.stateGroup ∧ condition row.key = true := by
    intro row
    rw [mem_filter, Bool.and_eq_true, decide_eq_true_iff, hsgs]
  unfold selectDistinct StateTables.state
  rw [mem_map, lookup_chainState_eq_some ht.prevStateGroup_lt]
  constructor
  · intro h
    obtain ⟨row, hdistinct, heq⟩ := h
    obtain ⟨rfl, rfl⟩ := Prod.mk.inj heq
    obtain ⟨hmem, hchain, hcondition⟩ := (hrow row).mp (mem_of_mem_distinctOn hdistinct)
    refine ⟨hcondition, row.stateGroup, hchain, ht.lookup_delta.mpr hmem, fun other hother hkey => ?_⟩
    obtain ⟨eventId, hlookup⟩ := exists_lookup hkey
    have hmem' := (hrow _).mpr ⟨ht.lookup_delta.mp hlookup, hother, hcondition⟩
    exact rank_le_of_mem_distinctOn hdistinct hmem' rfl
  · intro h
    obtain ⟨hcondition, group', hchain, hlookup, hmax⟩ := h
    have hmem := ht.lookup_delta.mp hlookup
    have hselected := (hrow ⟨group', key, eventId⟩).mpr ⟨hmem, hchain, hcondition⟩
    obtain ⟨row, hdistinct, hkey⟩ : ∃ row ∈ distinctOn StateRow.key StateRow.stateGroup _,
        row.key = key := exists_mem_distinctOn hselected
    obtain ⟨hmem', hchain', _⟩ := (hrow row).mp (mem_of_mem_distinctOn hdistinct)
    -- the row that was taken is in the nearest group that has the key
    have hle := rank_le_of_mem_distinctOn hdistinct hselected hkey.symm
    have hlookup' := ht.lookup_delta.mpr hmem'
    rw [hkey] at hlookup'
    have hge := hmax row.stateGroup hchain' (mem_of_lookup hlookup')
    have heq := ht.row_eq hmem' hmem (le_antisymm hge hle) hkey
    exact ⟨row, hdistinct, by rw [heq]⟩

section
include ht hf

theorem overallSelect_ok [DecidableEq ε]
    (hsgs : ∀ group', group' ∈ sgs ↔ InChain t.prevStateGroup group group') :
    ∃ rows, overallSelect t f sgs = .ok rows ∧ ∀ key eventId, (key, eventId) ∈ rows ↔
      (f.filterState (t.state group)).lookup key = some eventId := by
  have hfilter : ∀ key eventId, (f.filterState (t.state group)).lookup key = some eventId ↔
      f.admits key = true ∧ (t.state group).lookup key = some eventId := by
    intro key eventId
    rw [lookup_filterState, Option.ite_none_right_eq_some]
  unfold overallSelect
  split
  next hoptimization =>
    -- one query for each condition
    have hothers : f.includeOthers = false := by
      unfold useConditionOptimization at hoptimization
      cases h : f.includeOthers with
      | false => rfl
      | true => rw [h] at hoptimization; exact nomatch hoptimization
    rw [if_neg (mt List.isEmpty_iff.mp (filterConditions_ne_nil hothers hf))]
    refine ⟨_, rfl, fun key eventId => ?_⟩
    rw [mem_dedup, mem_flatMap, hfilter]
    have hany : f.admits key = true ↔ ∃ condition ∈ filterConditions f, condition.holds key = true := by
      rw [← any_eq_true, any_filterConditions]
      exact (and_iff_right_of_imp (mem_types_of_admits hothers)).symm
    rw [hany]
    constructor
    · intro h
      obtain ⟨condition, hmem, hselect⟩ := h
      obtain ⟨hholds, hlookup⟩ := (mem_selectDistinct ht hsgs).mp hselect
      exact ⟨⟨condition, hmem, hholds⟩, hlookup⟩
    · intro h
      obtain ⟨⟨condition, hmem, hholds⟩, hlookup⟩ := h
      exact ⟨condition, hmem, (mem_selectDistinct ht hsgs).mpr ⟨hholds, hlookup⟩⟩
  · refine ⟨_, rfl, fun key eventId => ?_⟩
    rw [mem_selectDistinct ht hsgs, whereClause_makeSqlFilterClause hf, hfilter]

theorem queryPostgres_ok [DecidableEq ε]
    (group : ℕ) : ∃ rows, queryPostgres t f group = .ok rows ∧ ∀ key eventId, (key, eventId) ∈ rows ↔
      (f.filterState (t.state group)).lookup key = some eventId := by
  have hlt : ∀ group prev, prev ∈ t.prevStateGroups group → prev < group := fun group prev h =>
    (ht.edge_lt _ (StateTables.mem_prevStateGroups.mp h)).2
  have hstart : ∀ group' ∈ [group], group' < group + 1 := by simp
  obtain ⟨sgs, hrecursive, hmem⟩ := withRecursive_of_lt hlt hstart
  have hchain : ∀ group', group' ∈ sgs ↔ InChain t.prevStateGroup group group' := by
    intro group'
    rw [hmem group']
    unfold InChain
    have hrel : (fun x y => y ∈ t.prevStateGroups x) = fun x y => t.prevStateGroup x = some y := by
      funext x y
      rw [StateTables.mem_prevStateGroups, ← ht.prevStateGroup_eq_some]
    rw [hrel]
    simp
  unfold queryPostgres
  rw [hrecursive]
  exact overallSelect_ok ht hf hchain

end

/-! ## The SQLite loop -/

/-- Rows of one key have one event: the first that is found is kept. -/
theorem lookup_addRows {rows : List (StateRow ε)}
    (hfun : ∀ row ∈ rows, ∀ row' ∈ rows, row.key = row'.key → row = row') :
    (addRows result rows).lookup key = some eventId ↔ result.lookup key = some eventId ∨
        key ∉ result ∧ ∃ row ∈ rows, row.key = key ∧ row.eventId = eventId := by
  induction rows generalizing result with
  | nil => simp [addRows]
  | cons row rows ih =>
    have hfun' : ∀ row ∈ rows, ∀ row' ∈ rows, row.key = row'.key → row = row' :=
      fun row' h row'' h' => hfun row' (mem_cons_of_mem _ h) row'' (mem_cons_of_mem _ h')
    refine (ih hfun').trans ?_
    dsimp only
    split
    next hmem =>
      refine or_congr_right (and_congr_right fun hkey => ?_)
      rw [exists_mem_cons_iff]
      refine (or_iff_right fun h => ?_).symm
      exact hkey (h.1 ▸ hmem)
    next hmem =>
      by_cases hkey : key = row.key
      · subst hkey
        have hnone := lookup_eq_none.mpr hmem
        have hrest : (∃ row' ∈ rows, row'.key = row.key ∧ row'.eventId = eventId) →
            row.eventId = eventId := by
          intro h
          obtain ⟨row', hrow', hkey, rfl⟩ := h
          rw [hfun row' (mem_cons_of_mem _ hrow') row mem_cons_self hkey]
        rw [lookup_insert, hnone]
        simpa [hmem] using hrest
      · simp [hkey, Ne.symm hkey]

/-- As many entries as the filter can admit are all that it admits. -/
theorem mem_of_maxEntriesReturned (hadmitted : ∀ key ∈ result, f.admits key = true)
    (hmax : f.maxEntriesReturned = some result.keys.length) (hkey : f.admits key = true) :
    key ∈ result := by
  obtain ⟨hwild, hmax⟩ := Option.ite_none_left_eq_some.mp hmax
  have hwild := Bool.eq_false_iff.mpr hwild
  have hsub : result.keys ⊆ f.concreteTypes := fun key' hkey' =>
    (StateFilter.admits_iff_mem_concreteTypes hwild).mp (hadmitted key' (mem_keys.mpr hkey'))
  have hperm := (subperm_of_subset result.keys_nodup hsub).perm_of_length_le (Option.some.inj hmax).le
  rw [AList.mem_keys, hperm.mem_iff]
  exact (StateFilter.admits_iff_mem_concreteTypes hwild).mp hkey

include ht in
theorem lookup_state_zero (key : StateKey) : (t.state 0).lookup key = none := by
  rw [ht.lookup_state]
  have hdelta : (t.delta 0).lookup key = none := by
    refine Option.eq_none_iff_forall_ne_some.mpr fun eventId hlookup => ?_
    exact absurd (ht.row_pos _ (ht.lookup_delta.mp hlookup)) (Nat.lt_irrefl 0)
  have hprev : t.prevStateGroup 0 = none := by
    refine Option.eq_none_iff_forall_ne_some.mpr fun prev hprev => ?_
    exact absurd (ht.prevStateGroup_lt 0 prev hprev) (Nat.not_lt_zero prev)
  rw [hdelta, hprev]
  rfl

section
include ht hf

/-- One turn of the loop adds the delta of the group, as far as the filter admits it. -/
theorem lookup_addRows_rowsOf
    (result : StateMap ε) (group : ℕ) (key : StateKey) :
    (addRows result ((t.rowsOf group).filter fun row =>
      whereClause (makeSqlFilterClause f) row.key)).lookup key =
      (result.lookup key).or (if f.admits key then (t.delta group).lookup key else none) := by
  have hrow : ∀ row, row ∈ ((t.rowsOf group).filter fun row =>
      whereClause (makeSqlFilterClause f) row.key) ↔
        (row ∈ t.stateGroupsState ∧ row.stateGroup = group) ∧ f.admits row.key = true := by
    intro row
    rw [mem_filter, StateTables.mem_rowsOf, whereClause_makeSqlFilterClause hf]
  refine Option.ext fun eventId => ?_
  rw [lookup_addRows]
  · cases hlookup : result.lookup key with
    | some eventId' =>
      have hmem : key ∈ result := mem_of_lookup hlookup
      simp [hmem]
    | none =>
      have hmem : key ∉ result := lookup_eq_none.mp hlookup
      have hdelta : (∃ row ∈ ((t.rowsOf group).filter fun row =>
          whereClause (makeSqlFilterClause f) row.key), row.key = key ∧ row.eventId = eventId) ↔
          f.admits key = true ∧ (t.delta group).lookup key = some eventId := by
        rw [ht.lookup_delta]
        constructor
        · intro h
          obtain ⟨row, hselected, rfl, rfl⟩ := h
          obtain ⟨⟨hstate, rfl⟩, hadmits⟩ := (hrow row).mp hselected
          exact ⟨hadmits, hstate⟩
        · intro h
          exact ⟨⟨group, key, eventId⟩, (hrow _).mpr ⟨⟨h.2, rfl⟩, h.1⟩, rfl, rfl⟩
      rw [hdelta]
      split <;> simp_all
  · intro row hmem row' hmem' hkey
    obtain ⟨⟨hstate, hgroup⟩, _⟩ := (hrow row).mp hmem
    obtain ⟨⟨hstate', hgroup'⟩, _⟩ := (hrow row').mp hmem'
    exact ht.row_eq hstate hstate' (hgroup.trans hgroup'.symm) hkey

/-- The loop fills in what the rest of the chain has of the keys that the filter admits. -/
theorem walkSqlite_ok :
    ∀ {rounds : ℕ} {nextGroup : Option ℕ} {result : StateMap ε},
      (∀ group, nextGroup = some group → group < rounds) → (∀ key ∈ result, f.admits key = true) →
      ∃ result', walkSqlite t f rounds nextGroup result = .ok result' ∧
        ∀ key, result'.lookup key = (result.lookup key).or (if f.admits key then
          nextGroup.bind fun group => (t.state group).lookup key else none)
  | _, none, result, _, _ => ⟨result, by rw [walkSqlite], fun key => by simp⟩
  | 0, some group, _, h, _ => absurd (h group rfl) (Nat.not_lt_zero group)
  | rounds + 1, some group, result, h, hadmitted => by
    rw [walkSqlite]
    by_cases hzero : group = 0
    · subst hzero
      exact ⟨result, if_pos rfl, fun key => by simp [lookup_state_zero ht key]⟩
    rw [if_neg hzero]
    have hadd := lookup_addRows_rowsOf ht hf result group
    have hstate := ht.lookup_state group
    generalize addRows result _ = added at hadd ⊢
    dsimp only
    have hadmitted' : ∀ key ∈ added, f.admits key = true := by
      intro key hmem
      obtain ⟨eventId, hlookup⟩ := exists_lookup hmem
      rw [hadd key, Option.or_eq_some_iff] at hlookup
      rcases hlookup with hlookup | ⟨_, hlookup⟩
      · exact hadmitted key (mem_of_lookup hlookup)
      · by_contra hnot
        rw [if_neg hnot] at hlookup
        exact nomatch hlookup
    split
    next hmax =>
      refine ⟨added, rfl, fun key => ?_⟩
      rw [hadd key, Option.bind_some, hstate key]
      split
      next hadmits =>
        -- the key has been found, so the rest of the chain does not matter
        have hmem := mem_of_maxEntriesReturned hadmitted' hmax hadmits
        obtain ⟨eventId, hlookup⟩ := exists_lookup hmem
        rw [hadd key, if_pos hadmits] at hlookup
        rw [← Option.or_assoc, hlookup, Option.some_or]
      · rfl
    · have hprev : ∀ prev, t.prevStateGroup group = some prev → prev < rounds := by
        intro prev hprev
        have := ht.prevStateGroup_lt _ _ hprev
        have := h _ rfl
        omega
      obtain ⟨result', hwalk, hlookup⟩ := walkSqlite_ok hprev hadmitted'
      refine ⟨result', hwalk, fun key => ?_⟩
      rw [hlookup key, hadd key, Option.bind_some, hstate key]
      split
      · rw [Option.or_assoc]
      · rw [Option.or_none]

/-! ## All groups -/

/-- Whatever part of the state is there already, after the walk it is the state that the filter
selects. -/
theorem walkGroup_ok [DecidableEq ε]
    (engine : DatabaseEngine) (group : ℕ) (hresult : ∀ key eventId, result.lookup key = some eventId →
      (f.filterState (t.state group)).lookup key = some eventId) :
    ∃ result', walkGroup engine t f group result = .ok result' ∧
      ∀ key, result'.lookup key = (f.filterState (t.state group)).lookup key := by
  cases engine with
  | postgres =>
    obtain ⟨rows, hquery, hrows⟩ := queryPostgres_ok ht hf group
    refine ⟨result.update rows, ?_, fun key => Option.ext fun eventId => ?_⟩
    · unfold walkGroup
      rw [hquery]
      rfl
    · rw [Dict.lookup_update_of_functional, hrows]
      · refine or_iff_left_of_imp fun h => hresult key eventId h.2
      · intro key eventId eventId' h h'
        exact Option.some.inj (((hrows _ _).mp h).symm.trans ((hrows _ _).mp h'))
  | sqlite =>
    have hstart : ∀ group', some group = some group' → group' < group + 1 := by
      intro group' h
      rw [← Option.some.inj h]
      exact Nat.lt_succ_self group
    have hadmitted : ∀ key ∈ result, f.admits key = true := by
      intro key hmem
      obtain ⟨eventId, hlookup⟩ := exists_lookup hmem
      by_contra hnot
      have hstate := hresult key eventId hlookup
      rw [lookup_filterState, if_neg hnot] at hstate
      exact nomatch hstate
    obtain ⟨result', hwalk, hlookup⟩ := walkSqlite_ok ht hf hstart hadmitted
    refine ⟨result', hwalk, fun key => ?_⟩
    rw [hlookup key, Option.bind_some, ← lookup_filterState]
    cases hkey : result.lookup key with
    | none => exact Option.none_or
    | some eventId => rw [Option.some_or, hresult key eventId hkey]

end

/-- What the loop over the groups has done. -/
structure Walked (t : StateTables ε) (f : StateFilter) (groups done : List ℕ)
    (results : GroupStates ε) : Prop where
  mem : ∀ group, group ∈ results ↔ group ∈ groups
  sound : ∀ group key eventId, (results.getD group ∅).lookup key = some eventId →
    (f.filterState (t.state group)).lookup key = some eventId
  exact : ∀ group ∈ done, ∀ key,
    (results.getD group ∅).lookup key = (f.filterState (t.state group)).lookup key

theorem walked_ofKeys (t : StateTables ε) (f : StateFilter) (groups : List ℕ) :
    Walked t f groups [] (ofKeys groups fun _ => ∅) := by
  have hempty : ∀ group, (ofKeys groups fun _ => (∅ : StateMap ε)).getD group ∅ = ∅ := by
    intro group
    unfold Dict.getD
    rw [Dict.lookup_ofKeys]
    split <;> rfl
  refine ⟨fun group => Dict.mem_ofKeys, fun group key eventId h => ?_, nofun⟩
  rw [hempty group] at h
  exact nomatch h

theorem Walked.insert {groups done : List ℕ} {results : GroupStates ε}
    (h : Walked t f groups done results) (hgroup : group ∈ groups)
    (hresult : ∀ key, result.lookup key = (f.filterState (t.state group)).lookup key) :
    Walked t f groups (done ++ [group]) (results.insert group result) := by
  refine ⟨fun group' => ?_, fun group' => ?_, fun group' hdone => ?_⟩
  · rw [mem_insert, h.mem group']
    exact or_iff_right_of_imp fun heq => heq ▸ hgroup
  · rw [Dict.getD_insert]
    split
    next heq => exact fun key eventId hlookup => by rw [heq, ← hresult key, hlookup]
    · exact h.sound group'
  · rw [Dict.getD_insert]
    split
    next heq => exact heq ▸ hresult
    next hne =>
      rw [mem_append, mem_singleton] at hdone
      exact h.exact group' (hdone.resolve_right hne)

theorem getStateGroupsFromGroupsTxn_answers [DecidableEq ε] (ht : t.IsForest)
    (hf : ∃ key, f.admits key = true) (engine : DatabaseEngine) (groups : List ℕ) :
    ∃ results, getStateGroupsFromGroupsTxn engine t groups f = .ok results ∧
      WalkAnswers t.state groups f results := by
  obtain ⟨results, hresults, hwalked⟩ : ∃ results,
      getStateGroupsFromGroupsTxn engine t groups f = .ok results ∧ Walked t f groups groups results := by
    refine foldlM_ok_inv groups (fun done group rest results heq h => ?_)
      (walked_ofKeys t f groups)
    obtain ⟨result, hwalk, hresult⟩ := walkGroup_ok ht hf engine group (h.sound group)
    refine ⟨results.insert group result, by rw [hwalk]; rfl, h.insert ?_ hresult⟩
    exact heq ▸ mem_append_cons_self
  refine ⟨results, hresults, hwalked.mem, fun group stateDict hlookup => ?_⟩
  have hgetD : results.getD group ∅ = stateDict := Dict.getD_of_lookup hlookup
  rw [← hgetD]
  exact hwalked.exact group ((hwalked.mem group).mp (mem_of_lookup hlookup))

theorem WalkAnswers.exact {state : ℕ → StateMap ε} {groups : List ℕ} {answer : GroupStates ε}
    (h : WalkAnswers state groups f answer) : Exact state groups f answer := by
  intro group hmem
  obtain ⟨stateDict, hlookup⟩ := exists_lookup ((h.mem group).mpr hmem)
  exact ⟨stateDict, hlookup, h.lookup group stateDict hlookup⟩

/-- Both walks return the state of each group that the filter selects: the deltas along the chain of
previous groups, nearest first, restricted to the keys that it admits. -/
theorem databaseWalks_exact [DecidableEq ε] (t : StateTables ε) (ht : t.IsForest) (f : StateFilter)
    (hf : ∃ key, f.admits key = true) (groups : List ℕ) :
    (∃ results, getStateGroupsFromGroupsTxn .postgres t groups f = .ok results ∧
      Exact t.state groups f results) ∧
    ∃ results, getStateGroupsFromGroupsTxn .sqlite t groups f = .ok results ∧
      Exact t.state groups f results := by
  obtain ⟨postgres, hpostgres, hanswers⟩ := getStateGroupsFromGroupsTxn_answers ht hf .postgres groups
  obtain ⟨sqlite, hsqlite, hanswers'⟩ := getStateGroupsFromGroupsTxn_answers ht hf .sqlite groups
  exact ⟨⟨postgres, hpostgres, hanswers.exact⟩, sqlite, hsqlite, hanswers'.exact⟩

/-- A room with a create event, then a topic, then another topic and a member. -/
def topicTables : StateTables String where
  stateGroups := [1, 2, 5]
  stateGroupEdges := [(2, 1), (5, 2)]
  stateGroupsState := [⟨1, (.create, ""), "$create"⟩, ⟨2, (.other "m.room.topic", ""), "$topic"⟩,
    ⟨5, (.other "m.room.topic", ""), "$topic2"⟩, ⟨5, (.member, "@alice"), "$join"⟩]

theorem topicTables_isForest : topicTables.IsForest := by
  refine ⟨?_, ?_, ?_, ?_⟩ <;> decide

/-- The topic, and all member events. -/
def topicFilter : StateFilter :=
  .ofTypes ((single (.other "m.room.topic") (some ⟨[""], by decide⟩)).insert .member none) false

theorem databaseWalks_exact_topic : topicTables.IsForest ∧ topicFilter.admits (.member, "@bob") = true ∧
    (∃ results, getStateGroupsFromGroupsTxn .postgres topicTables [5, 1, 5] topicFilter = .ok results ∧
      Exact topicTables.state [5, 1, 5] topicFilter results) ∧
    ∃ results, getStateGroupsFromGroupsTxn .sqlite topicTables [5, 1, 5] topicFilter = .ok results ∧
      Exact topicTables.state [5, 1, 5] topicFilter results :=
  ⟨topicTables_isForest, by decide, databaseWalks_exact topicTables topicTables_isForest topicFilter
    ⟨(.member, "@bob"), by decide⟩ [5, 1, 5]⟩

/-- A filter with a type but no state keys selects everything on SQLite and is no query on Postgres. -/
example : let f := ofTypes (single .member (some ⟨[], nodup_nil⟩)) false
    f.admits (.create, "") = false ∧
    (getStateGroupsFromGroupsTxn .sqlite topicTables [1] f).toOption.map (·.items.map (·.2.items)) =
      some [[((.create, ""), "$create")]] ∧
    getStateGroupsFromGroupsTxn .postgres topicTables [1] f = .error .syntaxError := by
  decide +kernel

end
end Synapse.StateGroups
