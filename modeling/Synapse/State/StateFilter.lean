import Synapse.State.StateMap

/-!
# State filters

`StateFilter` (`synapse/types/state.py`) says which part of a state map is wanted.  `types` gives for a
type the state keys that are wanted, all of them if there is no set; the types that do not appear are
wanted if `include_others` is set.

What a filter is for is `admits`: `filter_state` keeps the keys that it admits.  The other functions
are described by it.  `return_expanded` admits no less than the filter, the two filters of
`get_member_split` admit what the filter admits among the member events and among the others, and
`concrete_types` lists keys that it admits, all of them if there are no wildcards.
-/

namespace Synapse.State

open Synapse.Util Dict

/-- A `frozenset`, in the order in which it is walked. -/
abbrev FrozenSet (α : Type) := {elements : List α // elements.Nodup}

structure StateFilter where
  types : Dict EventType (Option (FrozenSet String))
  includeOthers : Bool
  /-- A filter that includes the other types has no wildcards among `types`. -/
  canonical : includeOthers = true → ∀ type, types.lookup type ≠ some none

namespace StateFilter

/-- `StateFilter(types, include_others)`, with `__attrs_post_init__`. -/
def ofTypes (types : Dict EventType (Option (FrozenSet String))) : Bool → StateFilter
  | false => ⟨types, false, fun h => (nomatch h)⟩
  | true =>
    { types := types.filterItems fun _ stateKeys => stateKeys.isSome
      includeOthers := true
      canonical := by
        intro _ type h
        rw [lookup_filterItems, Option.filter_eq_some_iff] at h
        exact absurd h.2 (by decide) }

def all : StateFilter := ofTypes ∅ true

def none : StateFilter := ofTypes ∅ false

/-- `_ALL_NON_MEMBER_STATE_FILTER`. -/
def allNonMember : StateFilter := ofTypes (single .member (some ⟨[], List.nodup_nil⟩)) true

variable (f : StateFilter)

def isFull : Bool := f.includeOthers && f.types.items.isEmpty

def hasWildcards : Bool := f.includeOthers || f.types.items.any fun (_, stateKeys) => stateKeys.isNone

def concreteTypes : List StateKey := f.types.items.flatMap fun (type, stateKeys) =>
    match stateKeys with
    | .none => []
    | some stateKeys => stateKeys.1.map (type, ·)

/-- Whether the loop of `filter_state` keeps the key. -/
def admits (key : StateKey) : Bool :=
  match f.types.lookup key.1 with
  | some .none => true
  | some (some stateKeys) => key.2 ∈ stateKeys.1
  | .none => f.includeOthers

def filterState {ε : Type} (f : StateFilter) (stateDict : StateMap ε) : StateMap ε :=
  if f.isFull then stateDict else stateDict.filterItems fun key _ => f.admits key

def maxEntriesReturned : Option ℕ :=
  if f.hasWildcards then .none else some f.concreteTypes.length

def returnExpanded : StateFilter :=
  if f.isFull then f
  else if !f.hasWildcards then f
  else
    let getAllMembers :=
      match f.types.lookup .member with
      | some stateKeys => stateKeys.isNone
      | .none => f.includeOthers
    let hasNonMemberWildcard := f.includeOthers ||
      f.types.items.any fun (type, stateKeys) => type ≠ .member && stateKeys.isNone
    if !hasNonMemberWildcard then f
    else if getAllMembers then all
    else
      match f.types.lookup .member with
      | some stateKeys => ofTypes (single .member stateKeys) true
      | .none => allNonMember

/-- `member_filter` of `get_member_split`: for maps of member events. -/
def memberFilter : StateFilter :=
  match f.types.lookup .member with
  | some .none => all
  | some (some stateKeys) => ofTypes (single .member (some stateKeys)) false
  | .none => if f.includeOthers then all else none

/-- `non_member_filter` of `get_member_split`: for maps of other events. -/
def nonMemberFilter : StateFilter :=
  ofTypes (f.types.filterItems fun type _ => type ≠ .member) f.includeOthers

def getMemberSplit : StateFilter × StateFilter := (f.memberFilter, f.nonMemberFilter)

/-! ## What the functions admit -/

section
variable {f : StateFilter} {key : StateKey}

theorem types_eq_empty_of_isFull (h : f.isFull = true) (type : EventType) :
    f.types.lookup type = .none := by
  obtain ⟨_, hempty⟩ := Bool.and_eq_true_iff.mp h
  refine Option.eq_none_iff_forall_ne_some.mpr fun stateKeys hlookup => ?_
  have hmem := mem_items.mpr hlookup
  rw [List.isEmpty_iff.mp hempty] at hmem
  exact nomatch hmem

theorem admits_of_isFull (h : f.isFull = true) : f.admits key = true := by
  unfold admits
  rw [types_eq_empty_of_isFull h]
  exact (Bool.and_eq_true_iff.mp h).1

theorem lookup_filterState {ε : Type} {stateDict : StateMap ε} :
    (f.filterState stateDict).lookup key = if f.admits key then stateDict.lookup key else .none := by
  unfold filterState
  split
  next hfull => rw [if_pos (admits_of_isFull hfull)]
  · rw [lookup_filterItems]
    cases hadmits : f.admits key <;> cases stateDict.lookup key <;> rfl

theorem mem_concreteTypes : key ∈ f.concreteTypes ↔
    ∃ stateKeys, f.types.lookup key.1 = some (some stateKeys) ∧ key.2 ∈ stateKeys.1 := by
  unfold concreteTypes
  rw [List.mem_flatMap]
  constructor
  · intro h
    obtain ⟨⟨type, stateKeys⟩, hitem, hkey⟩ := h
    cases stateKeys with
    | none => exact nomatch hkey
    | some stateKeys =>
      obtain ⟨stateKey, hmem, rfl⟩ := List.mem_map.mp hkey
      exact ⟨stateKeys, mem_items.mp hitem, hmem⟩
  · intro h
    obtain ⟨stateKeys, hlookup, hmem⟩ := h
    exact ⟨(key.1, some stateKeys), mem_items.mpr hlookup, List.mem_map.mpr ⟨key.2, hmem, rfl⟩⟩

theorem admits_of_mem_concreteTypes (h : key ∈ f.concreteTypes) : f.admits key = true := by
  obtain ⟨stateKeys, hlookup, hmem⟩ := mem_concreteTypes.mp h
  unfold admits
  rw [hlookup]
  exact decide_eq_true hmem

theorem hasWildcards_eq_false (h : f.hasWildcards = false) :
    f.includeOthers = false ∧ ∀ type, f.types.lookup type ≠ some .none := by
  obtain ⟨hothers, hany⟩ := Bool.or_eq_false_iff.mp h
  refine ⟨hothers, fun type hlookup => ?_⟩
  exact absurd rfl (List.any_eq_false.mp hany _ (mem_items.mpr hlookup))

/-- Without wildcards `concrete_types` lists all that the filter admits. -/
theorem admits_iff_mem_concreteTypes (h : f.hasWildcards = false) :
    f.admits key = true ↔ key ∈ f.concreteTypes := by
  refine ⟨fun hadmits => ?_, admits_of_mem_concreteTypes⟩
  obtain ⟨hothers, hnone⟩ := hasWildcards_eq_false h
  unfold admits at hadmits
  split at hadmits
  next hlookup => exact absurd hlookup (hnone key.1)
  next stateKeys hlookup => exact mem_concreteTypes.mpr ⟨stateKeys, hlookup, of_decide_eq_true hadmits⟩
  · exact absurd (hothers ▸ hadmits) (by decide)

theorem admits_all : all.admits key = true := rfl

/-- Wildcards that `__attrs_post_init__` removes are admitted with the other types. -/
theorem admits_ofTypes {types : Dict EventType (Option (FrozenSet String))} {includeOthers : Bool} :
    (ofTypes types includeOthers).admits key = match types.lookup key.1 with
      | some .none => true
      | some (some stateKeys) => decide (key.2 ∈ stateKeys.1)
      | .none => includeOthers := by
  cases includeOthers with
  | false => rfl
  | true =>
    show (match (types.filterItems fun _ stateKeys => stateKeys.isSome).lookup key.1 with
      | some .none => true
      | some (some stateKeys) => decide (key.2 ∈ stateKeys.1)
      | .none => true) = _
    rw [lookup_filterItems]
    rcases types.lookup key.1 with _ | _ | stateKeys <;> rfl

variable {stateKeys : FrozenSet String}

/-- The filter for all events that are not member events, and the member events with these keys. -/
theorem admits_ofTypes_member : (ofTypes (single .member (some stateKeys)) true).admits key = true ↔
      (key.1 = .member → key.2 ∈ stateKeys.1) := by
  rw [admits_ofTypes]
  by_cases hmember : key.1 = .member
  · simp [lookup_single, hmember]
  · simp [lookup_single, hmember]

/-- What a filter that names member events admits of them. -/
theorem admits_member (hmember : key.1 = .member) (h : f.types.lookup .member = some (some stateKeys)) :
    f.admits key = true ↔ key.2 ∈ stateKeys.1 := by
  unfold admits
  rw [hmember, h]
  exact decide_eq_true_iff

theorem admits_returnExpanded (h : f.admits key = true) : f.returnExpanded.admits key = true := by
  unfold returnExpanded
  split
  · exact h
  · split
    · exact h
    · dsimp only
      split
      · exact h
      · -- the filter wants all events that are not member events
        cases hlookup : f.types.lookup .member with
        | none =>
          by_cases hothers : f.includeOthers = true
          · rw [if_pos hothers]
            exact admits_all
          · rw [if_neg hothers]
            refine admits_ofTypes_member.mpr fun hmember => ?_
            unfold admits at h
            rw [hmember, hlookup] at h
            exact absurd h hothers
        | some stateKeys =>
          cases stateKeys with
          | none => exact admits_all
          | some stateKeys =>
            exact admits_ofTypes_member.mpr fun hmember => (admits_member hmember hlookup).mp h

/-! ## Member events and the others -/

theorem admits_memberFilter (hmember : key.1 = .member) : f.memberFilter.admits key = f.admits key := by
  have hadmits : f.admits key = match f.types.lookup .member with
      | some .none => true
      | some (some stateKeys) => decide (key.2 ∈ stateKeys.1)
      | .none => f.includeOthers := by
    rw [← hmember]
    rfl
  rw [hadmits]
  unfold memberFilter
  split
  · rfl
  next stateKeys _ => rw [admits_ofTypes, lookup_single, if_pos hmember]
  · cases f.includeOthers <;> rfl

theorem admits_nonMemberFilter (hmember : key.1 ≠ .member) :
    f.nonMemberFilter.admits key = f.admits key := by
  unfold nonMemberFilter
  rw [admits_ofTypes, lookup_filterItems]
  unfold admits
  cases f.types.lookup key.1 with
  | none => rfl
  | some stateKeys => simp [Option.filter, hmember]

end
end StateFilter
end Synapse.State
