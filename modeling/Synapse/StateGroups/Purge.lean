import Mathlib.Data.Finset.Sort
import Synapse.StateGroups.Store

/-!
# What purging leaves behind, and what it is given

`_purge_unreferenced_state_groups` deletes the rows of the purged groups from `state_groups_state` and
`state_groups`, but not those of `state_group_edges` that start at them.  Such a row says that a group
which is gone is a delta from its previous group.  When that one is purged as well, the row makes the
purge "de-delta" the group that is gone: it gets rows in `state_groups_state` again, which nothing will
ever delete.  The tables stay without such rows exactly in the runs that never purge a group with a row
in `state_group_edges`.

Which groups are purged is found by `_find_unreferenced_groups`
(`synapse/storage/controllers/purge_events.py`), a search that starts at the groups of the events to be
deleted and is meant to go on to their previous groups.  It asks `get_previous_state_groups` for them,
which selects the edges by `prev_state_group` instead of `state_group`.  The previous groups that it
gets back are the very groups that it asked for, so that the search ends where it started.
-/

namespace Synapse.StateGroups

open Synapse.Util Synapse.State Synapse.Caches Finset

variable {ε : Type}

/-! ## Rows without a group -/

/-- Every row of `state_groups_state` and every row of `state_group_edges` starts at a group that has a
row in `state_groups`. -/
structure StateTables.NoOrphans (t : StateTables ε) : Prop where
  rows : ∀ row ∈ t.stateGroupsState, row.stateGroup ∈ t.stateGroups
  edges : ∀ edge ∈ t.stateGroupEdges, edge.1 ∈ t.stateGroups

namespace StateTables
variable {t : StateTables ε}

theorem NoOrphans.insertGroup (h : t.NoOrphans) (group : ℕ) (prevGroup : Option ℕ)
    (ids : StateMap ε) : (t.insertGroup group prevGroup ids).NoOrphans := by
  have hnew : group ∈ t.stateGroups ++ [group] := List.mem_append_cons_self
  refine ⟨fun row hmem => ?_, fun edge hmem => ?_⟩
  · rcases mem_insertGroup_rows.mp hmem with hmem | ⟨hgroup, _⟩
    · exact List.mem_append_left _ (h.rows row hmem)
    · exact hgroup ▸ hnew
  · rcases mem_insertGroup_edges.mp hmem with hmem | ⟨hgroup, _⟩
    · exact List.mem_append_left _ (h.edges edge hmem)
    · exact hgroup ▸ hnew

theorem NoOrphans.insertContexts (h : t.NoOrphans) (lastId sgBefore : ℕ)
    (events : List (BatchedEvent ε)) :
    (t.insertContexts (assignStateGroups lastId sgBefore events)).NoOrphans := by
  induction events generalizing t lastId sgBefore with
  | nil =>
    have hnil : t.insertContexts [] = t := by simp [StateTables.insertContexts]
    exact hnil.symm ▸ h
  | cons event events ih =>
    unfold assignStateGroups
    cases hkey : event.stateKey with
    | none =>
      rw [insertContexts_cons_other rfl (event.noDelta hkey)]
      exact ih h lastId sgBefore
    | some key =>
      rw [insertContexts_cons_state rfl rfl]
      exact ih (h.insertGroup _ _ _) (lastId + 1) (lastId + 1)

/-- A purge leaves rows without a group exactly if one of its groups is stored as a delta. -/
theorem DeDeltaed.noOrphans_deleteGroups {t₀ : StateTables ε} {lastId : ℕ}
    {states : GroupStates ε} {order : IterOrder} {toDelete : List ℕ}
    (h : DeDeltaed t₀ lastId states (t₀.remainingStateGroups order toDelete) t) (h₀ : t₀.NoOrphans) :
    (t.deleteGroups toDelete).NoOrphans ↔ ∀ edge ∈ t₀.stateGroupEdges, edge.1 ∉ toDelete := by
  constructor
  · intro horphans edge hmem hdelete
    -- the loop keeps the edges of the groups to delete
    have hkept : edge ∈ t.stateGroupEdges :=
      (h.edges edge).mpr ⟨hmem, fun hremaining => (mem_remainingStateGroups.mp hremaining).2 hdelete⟩
    exact (mem_deleteGroups.mp (horphans.edges edge hkept)).2 hdelete
  · intro hdelta
    refine ⟨fun row hmem => ?_, fun edge hmem => ?_⟩
    · obtain ⟨hmem, hkept⟩ := List.mem_filter.mp hmem
      refine mem_deleteGroups.mpr ⟨?_, of_decide_eq_true hkept⟩
      rw [h.groups]
      rcases h.rows row hmem with hmem | hremaining
      · exact h₀.rows row hmem
      · obtain ⟨⟨edge, hedge, _, hgroup⟩, _⟩ := mem_remainingStateGroups.mp hremaining
        exact hgroup ▸ h₀.edges edge hedge
    · have hold := ((h.edges edge).mp hmem).1
      refine mem_deleteGroups.mpr ⟨?_, hdelta edge hold⟩
      rw [h.groups]
      exact h₀.edges edge hold

end StateTables

variable {s : StateGroupStore ε} {a : AbstractStore ε}

/-- A step from `s` to `s'` that leaves no rows without a group if there were none. -/
structure Keeps (s s' : StateGroupStore ε) : Prop where
  refines : ∃ a', Refines s' a'
  noOrphans : s.tables.NoOrphans → s'.tables.NoOrphans

theorem Refines.keeps (h : Refines s a) : Keeps s s := ⟨⟨a, h⟩, id⟩

theorem Refines.keeps_insertFull (h : Refines s a) (currentStateIds : StateMap ε) :
    Keeps s (insertFullStateTxn s currentStateIds).2 :=
  ⟨⟨_, h.insertFull fun _ => rfl⟩, fun horphans => horphans.insertGroup _ _ _⟩

/-- Storing a group adds rows for it, or does nothing.  Here a full state that is given need not be what
the previous group and the delta give. -/
theorem Refines.keeps_storeStateGroup [DecidableEq ε] (h : Refines s a) (engine : DatabaseEngine)
    (prevGroup : Option ℕ) (deltaIds currentStateIds : Option (StateMap ε)) :
    Keeps s (s.step engine (.storeStateGroup prevGroup deltaIds currentStateIds)) := by
  match prevGroup, deltaIds, currentStateIds with
  | none, _, none => exact h.keeps
  | none, _, some currentStateIds => exact h.keeps_insertFull currentStateIds
  | some _, none, _ => exact h.keeps
  | some prevGroup, some deltaIds, currentStateIds =>
    unfold StateGroupStore.step
    dsimp only
    by_cases hmem : prevGroup ∈ s.tables.stateGroups
    · obtain ⟨prevState, hprev⟩ := Dict.exists_lookup ((h.tables.mem prevGroup).mp hmem)
      obtain ⟨hops, hhops⟩ := h.tables.forest.countStateGroupHopsTxn engine prevGroup
      rw [storeStateGroup_eq _ hmem hhops]
      split_ifs
      · cases currentStateIds with
        | some currentStateIds => exact h.keeps_insertFull currentStateIds
        | none =>
          have hnone : ∀ current, (none : Option (StateMap ε)) = some current →
              ∀ key, current.lookup key = (prevState.update deltaIds.items).lookup key :=
            nofun
          obtain ⟨current, caches, hload, hs', _⟩ := h.loadCurrentState engine hprev hnone
          rw [hload]
          exact ⟨(hs'.keeps_insertFull current).refines, (hs'.keeps_insertFull current).noOrphans⟩
      · exact ⟨⟨_, h.insertDelta hprev deltaIds⟩, fun horphans => horphans.insertGroup _ _ _⟩
    · rw [storeStateGroup_unpersisted _ hmem]
      exact h.keeps

theorem Refines.keeps_storeStateDeltasForBatched [DecidableEq ε] (h : Refines s a)
    (engine : DatabaseEngine) (events : List (BatchedEvent ε)) (prevGroup : ℕ) :
    Keeps s (s.step engine (.storeStateDeltasForBatched events prevGroup)) := by
  refine ⟨⟨_, h.step engine trivial⟩, fun horphans => ?_⟩
  unfold StateGroupStore.step Synapse.StateGroups.storeStateDeltasForBatched
  dsimp only
  split_ifs
  · exact horphans.insertContexts _ _ _
  · exact horphans

/-- The groups that a purge is given have no row in `state_group_edges`. -/
def Operation.PurgesNoDelta (t : StateTables ε) : Operation ε → Prop
  | .purgeUnreferencedStateGroups _ toDelete => ∀ edge ∈ t.stateGroupEdges, edge.1 ∉ toDelete
  | _ => True

theorem Refines.noOrphans_step [DecidableEq ε] (h : Refines s a) (engine : DatabaseEngine)
    (op : Operation ε) (horphans : s.tables.NoOrphans) : (∃ a', Refines (s.step engine op) a') ∧
      ((s.step engine op).tables.NoOrphans ↔ op.PurgesNoDelta s.tables) := by
  cases op with
  | storeStateGroup prevGroup deltaIds currentStateIds =>
    have hkeeps := h.keeps_storeStateGroup engine prevGroup deltaIds currentStateIds
    exact ⟨hkeeps.refines, iff_of_true (hkeeps.noOrphans horphans) trivial⟩
  | storeStateDeltasForBatched events prevGroup =>
    have hkeeps := h.keeps_storeStateDeltasForBatched engine events prevGroup
    exact ⟨hkeeps.refines, iff_of_true (hkeeps.noOrphans horphans) trivial⟩
  | purgeUnreferencedStateGroups order toDelete =>
    refine ⟨⟨_, h.step engine trivial⟩, ?_⟩
    obtain ⟨t', hok, hdeDeltaed⟩ := h.tables.deDelta engine order toDelete
    unfold StateGroupStore.step Synapse.StateGroups.purgeUnreferencedStateGroups
    dsimp only
    rw [hok]
    exact hdeDeltaed.noOrphans_deleteGroups horphans

/-- From tables without such rows. -/
theorem Refines.noOrphans_run [DecidableEq ε] (engine : DatabaseEngine) (ops : List (Operation ε)) :
    ∀ {s : StateGroupStore ε} {a : AbstractStore ε}, Refines s a → s.tables.NoOrphans →
      ((∀ n, ((ops.take n).foldl (StateGroupStore.step engine) s).tables.NoOrphans) ↔
        ∀ (n : ℕ) (op : Operation ε), ops[n]? = some op →
          op.PurgesNoDelta ((ops.take n).foldl (StateGroupStore.step engine) s).tables) := by
  induction ops with
  | nil => exact fun _ horphans => iff_of_true (fun n => by simpa using horphans) fun n op h => by simp at h
  | cons op ops ih =>
    intro s a h horphans
    obtain ⟨⟨a', ha'⟩, hstep⟩ := h.noOrphans_step engine op horphans
    constructor
    · intro hall n op' hop'
      have hnext := hstep.mp (by simpa using hall 1)
      cases n with
      | zero =>
        obtain rfl := Option.some.inj hop'
        exact hnext
      | succ n =>
        exact (ih ha' (hstep.mpr hnext)).mp (fun n => by simpa using hall (n + 1)) n op' hop'
    · intro hall n
      have hnext := hstep.mpr (hall 0 op rfl)
      cases n with
      | zero => exact horphans
      | succ n =>
        exact (ih ha' hnext).mpr (fun n op' hop' => hall (n + 1) op' hop') n

/-- No state of a run has rows without a group exactly if no purge is given a group that is stored as a
delta. -/
theorem noOrphans_iff_purgesNoDelta [DecidableEq ε] (engine : DatabaseEngine)
    (ops : List (Operation ε)) : (∀ n, (StateGroupStore.run engine (ops.take n)).tables.NoOrphans) ↔
      ∀ (n : ℕ) (op : Operation ε), ops[n]? = some op →
        op.PurgesNoDelta (StateGroupStore.run engine (ops.take n)).tables := by
  refine refines_init.noOrphans_run engine ops ⟨fun _ hmem => ?_, fun _ hmem => ?_⟩
  · exact nomatch hmem
  · exact nomatch hmem

/-- A delta and then its previous group are purged.  The second purge brings rows of the delta back. -/
theorem noOrphans_purgedTopic :
    let s := StateGroupStore.run .sqlite (topicOperations ++
      [.purgeUnreferencedStateGroups .insertion [2, 3], .purgeUnreferencedStateGroups .insertion [1]])
    s.tables.stateGroups = [] ∧ s.tables.stateGroupEdges = [(3, 2)] ∧
      s.tables.stateGroupsState = [⟨2, (.create, ""), "$create"⟩] ∧ ¬ s.tables.NoOrphans := by
  refine ⟨by decide +kernel, by decide +kernel, by decide +kernel, fun h => ?_⟩
  exact absurd (h.edges (3, 2) (by decide +kernel)) (by decide +kernel)

/-! ## Which groups are purged -/

/-- The tables that the search reads. -/
structure PurgeTables where
  /-- The rows `(state_group, prev_state_group)` of `state_group_edges`. -/
  stateGroupEdges : List (ℕ × ℕ)
  /-- The column `state_group` of `event_to_state_groups`. -/
  eventToStateGroups : List ℕ

/-- The subset of the groups that events refer to. -/
def getReferencedStateGroups (t : PurgeTables) (stateGroups : Finset ℕ) : Finset ℕ :=
  (t.eventToStateGroups.filter (· ∈ stateGroups)).toFinset

/-- `dict(rows)` of the rows `(state_group, prev_state_group)` with
`prev_state_group IN state_groups`. -/
def getPreviousStateGroups (t : PurgeTables) (stateGroups : Finset ℕ) : Dict ℕ ℕ :=
  Dict.update ∅ (t.stateGroupEdges.filter fun edge => edge.2 ∈ stateGroups)

/-- `set(itertools.islice(next_to_search, 100))`: some hundred of the groups. -/
structure Slices where
  slice : Finset ℕ → Finset ℕ
  slice_subset : ∀ groups, slice groups ⊆ groups
  card_slice : ∀ groups, 100 ≤ groups.card → (slice groups).card = 100

/-- A set that is iterated from its smallest element on. -/
def Slices.smallest : Slices where
  slice groups := ((groups.sort (· ≤ ·)).take 100).toFinset
  slice_subset groups group hmem :=
    (mem_sort (· ≤ ·)).mp (List.mem_of_mem_take (List.mem_toFinset.mp hmem))
  card_slice groups hle := by
    rw [List.toFinset_card_of_nodup ((sort_nodup groups (· ≤ ·)).sublist (List.take_sublist _ _)),
      List.length_take, length_sort, Nat.min_eq_left hle]

/-- The sets that `_find_unreferenced_groups` keeps. -/
structure GroupSearch where
  referencedGroups : Finset ℕ
  stateGroupsSeen : Finset ℕ
  nextToSearch : Finset ℕ

/-- One turn of the loop. -/
def GroupSearch.round (t : PurgeTables) (slices : Slices) (search : GroupSearch) : GroupSearch :=
  let currentSearch :=
    if search.nextToSearch.card < 100 then search.nextToSearch
    else slices.slice search.nextToSearch
  let nextToSearch := search.nextToSearch \ currentSearch
  let referenced := getReferencedStateGroups t currentSearch
  let currentSearch := currentSearch \ referenced
  let edges := getPreviousStateGroups t currentSearch
  let prevs := (edges.items.map (·.2)).toFinset \ search.stateGroupsSeen
  { referencedGroups := search.referencedGroups ∪ referenced
    stateGroupsSeen := search.stateGroupsSeen ∪ prevs
    nextToSearch := nextToSearch ∪ prevs }

/-- `while next_to_search`; returns nothing if it takes more turns. -/
def GroupSearch.loop (t : PurgeTables) (slices : Slices) : ℕ → GroupSearch → Option GroupSearch
  | 0, search => if search.nextToSearch = ∅ then some search else none
  | rounds + 1, search =>
    if search.nextToSearch = ∅ then some search else loop t slices rounds (search.round t slices)

def findUnreferencedGroups (t : PurgeTables) (slices : Slices) (rounds : ℕ) (stateGroups : Finset ℕ) :
    Option (Finset ℕ) :=
  (GroupSearch.loop t slices rounds ⟨∅, stateGroups, stateGroups⟩).map fun search =>
    search.stateGroupsSeen \ search.referencedGroups

/-- The groups that can be removed: no event refers to them, and they are reached from the given groups
along previous groups, through groups that no event refers to. -/
def Removable (t : PurgeTables) (stateGroups : Finset ℕ) (group : ℕ) : Prop :=
  group ∉ t.eventToStateGroups ∧ ∃ start ∈ stateGroups, Relation.ReflTransGen
    (fun group prev => group ∉ t.eventToStateGroups ∧ (group, prev) ∈ t.stateGroupEdges) start group

section
variable {t : PurgeTables} {slices : Slices} {stateGroups : Finset ℕ}

theorem mem_getReferencedStateGroups {group : ℕ} : group ∈ getReferencedStateGroups t stateGroups ↔
      group ∈ t.eventToStateGroups ∧ group ∈ stateGroups := by
  unfold getReferencedStateGroups
  rw [List.mem_toFinset, List.mem_filter, decide_eq_true_iff]

/-- The "previous groups" are among the groups that were asked for. -/
theorem values_getPreviousStateGroups_subset (stateGroups : Finset ℕ) :
    ((getPreviousStateGroups t stateGroups).items.map (·.2)).toFinset ⊆ stateGroups := by
  intro prev hmem
  obtain ⟨item, hitem, rfl⟩ := List.mem_map.mp (List.mem_toFinset.mp hmem)
  rcases Dict.mem_or_lookup_of_lookup_update (Dict.mem_items.mp hitem) with hedge | hempty
  · exact of_decide_eq_true (List.mem_filter.mp hedge).2
  · exact nomatch hempty

/-- The groups have all been seen at the start; what is not searched any more has been looked up. -/
structure GroupSearch.Inv (t : PurgeTables) (stateGroups : Finset ℕ) (search : GroupSearch) : Prop where
  seen : search.stateGroupsSeen = stateGroups
  next : search.nextToSearch ⊆ stateGroups
  referenced : ∀ group, group ∈ search.referencedGroups ↔
    group ∈ t.eventToStateGroups ∧ group ∈ stateGroups ∧ group ∉ search.nextToSearch

theorem GroupSearch.Inv.round (slices : Slices) {search : GroupSearch}
    (h : search.Inv t stateGroups) (hne : search.nextToSearch ≠ ∅) :
    (search.round t slices).Inv t stateGroups ∧
      (search.round t slices).nextToSearch.card < search.nextToSearch.card := by
  unfold GroupSearch.round
  dsimp only
  set current := if search.nextToSearch.card < 100 then search.nextToSearch
    else slices.slice search.nextToSearch with hcurrent
  have hsubset : current ⊆ search.nextToSearch := by
    rw [hcurrent]
    split
    · exact Subset.refl _
    · exact slices.slice_subset _
  have hnonempty : current.Nonempty := by
    rw [hcurrent]
    split
    · exact nonempty_iff_ne_empty.mpr hne
    next hlarge =>
      rw [← card_pos, slices.card_slice _ (Nat.le_of_not_lt hlarge)]
      decide
  -- nothing new comes back
  have hprevs : (((getPreviousStateGroups t (current \ getReferencedStateGroups t current)).items.map
      (·.2)).toFinset \ search.stateGroupsSeen) = ∅ := by
    rw [sdiff_eq_empty_iff_subset, h.seen]
    exact (values_getPreviousStateGroups_subset _).trans (sdiff_subset.trans (hsubset.trans h.next))
  rw [hprevs, union_empty, union_empty]
  refine ⟨⟨h.seen, sdiff_subset.trans h.next, fun group => ?_⟩, ?_⟩
  · rw [mem_union, h.referenced group, mem_getReferencedStateGroups, mem_sdiff]
    have hnext : group ∈ search.nextToSearch → group ∈ stateGroups := fun hmem => h.next hmem
    tauto
  · exact card_lt_card (sdiff_ssubset hsubset hnonempty)

theorem GroupSearch.Inv.loop (slices : Slices) : ∀ {rounds : ℕ} {search : GroupSearch},
    search.Inv t stateGroups → search.nextToSearch.card ≤ rounds →
      ∃ search', GroupSearch.loop t slices rounds search = some search' ∧
        search'.Inv t stateGroups ∧ search'.nextToSearch = ∅
  | 0, search, h, hle => by
    have hempty := card_eq_zero.mp (Nat.le_zero.mp hle)
    exact ⟨search, if_pos hempty, h, hempty⟩
  | rounds + 1, search, h, hle => by
    unfold GroupSearch.loop
    split
    next hempty => exact ⟨search, rfl, h, hempty⟩
    next hne =>
      obtain ⟨hround, hlt⟩ := h.round slices hne
      exact hround.loop slices (by omega)

/-- The search returns the groups that it was given and no event refers to. -/
theorem findUnreferencedGroups_eq (stateGroups : Finset ℕ) {rounds : ℕ}
    (hrounds : stateGroups.card ≤ rounds) : findUnreferencedGroups t slices rounds stateGroups =
      some (stateGroups.filter (· ∉ t.eventToStateGroups)) := by
  have hinit : GroupSearch.Inv t stateGroups ⟨∅, stateGroups, stateGroups⟩ :=
    ⟨rfl, Subset.refl _, fun group => by simp⟩
  obtain ⟨search, hloop, h, hempty⟩ := hinit.loop slices hrounds
  unfold findUnreferencedGroups
  rw [hloop, Option.map_some, h.seen]
  congr 1
  ext group
  rw [mem_sdiff, mem_filter, h.referenced group, hempty]
  tauto

/-- The search finds exactly the groups that can be removed if and only if the previous groups of the
unreferenced groups that it is given are given as well, or referenced. -/
theorem findUnreferencedGroups_exact_iff (t : PurgeTables) (slices : Slices) (stateGroups : Finset ℕ)
    (rounds : ℕ) (hrounds : stateGroups.card ≤ rounds) :
    (∃ toDelete, findUnreferencedGroups t slices rounds stateGroups = some toDelete ∧
      ∀ group, group ∈ toDelete ↔ Removable t stateGroups group) ↔
    ∀ group ∈ stateGroups, group ∉ t.eventToStateGroups → ∀ prev, (group, prev) ∈ t.stateGroupEdges →
      prev ∈ stateGroups ∨ prev ∈ t.eventToStateGroups := by
  rw [findUnreferencedGroups_eq stateGroups hrounds]
  constructor
  · intro h group hmem hunref prev hedge
    obtain ⟨toDelete, hdelete, hexact⟩ := h
    by_contra hneither
    obtain ⟨hnot, hunref'⟩ := not_or.mp hneither
    have hprev := (hexact prev).mpr ⟨hunref', group, hmem, .single ⟨hunref, hedge⟩⟩
    rw [← Option.some.inj hdelete, mem_filter] at hprev
    exact hnot hprev.1
  · intro hclosed
    refine ⟨_, rfl, fun group => ?_⟩
    rw [mem_filter]
    constructor
    · exact fun h => ⟨h.2, group, h.1, .refl⟩
    · intro h
      obtain ⟨hunref, start, hstart, hpath⟩ := h
      refine ⟨?_, hunref⟩
      -- the path does not leave the groups that are given
      induction hpath with
      | refl => exact hstart
      | @tail group' prev _ hstep ih =>
        exact (hclosed group' (ih hstep.1) hstep.1 prev hstep.2).resolve_right hunref

/-- Group 2 is a delta from group 1 and no event refers to either.  Started at both, the search finds
both. -/
theorem findUnreferencedGroups_exact_both :
    ∃ toDelete, findUnreferencedGroups ⟨[(2, 1)], [3]⟩ .smallest 2 {1, 2} = some toDelete ∧
      ∀ group, group ∈ toDelete ↔ Removable ⟨[(2, 1)], [3]⟩ {1, 2} group := by
  refine (findUnreferencedGroups_exact_iff ⟨[(2, 1)], [3]⟩ .smallest {1, 2} 2 (by decide)).mpr ?_
  intro group _ _ prev hedge
  obtain ⟨_, rfl⟩ := Prod.mk.inj (List.mem_singleton.mp hedge)
  exact .inl (by decide)

/-- Started at group 2 alone, it does not find group 1. -/
theorem findUnreferencedGroups_misses_previous :
    findUnreferencedGroups ⟨[(2, 1)], [3]⟩ .smallest 2 {2} = some {2} ∧
      Removable ⟨[(2, 1)], [3]⟩ {2} 1 := by
  refine ⟨by decide +kernel, by decide, 2, by decide, .single ⟨by decide, by decide⟩⟩

end
end Synapse.StateGroups
