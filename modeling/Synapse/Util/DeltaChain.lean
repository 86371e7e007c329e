import Synapse.Util.Dict

/-!
# Chains of deltas

Maps that are stored as deltas: a group has a delta and possibly a previous group, and its map is the
delta laid over the map of the previous group.  Previous groups have smaller numbers, so the map of a
group depends on no more groups than its number says.
-/

namespace Synapse.Util
variable {κ ν : Type} [DecidableEq κ]

/-- The map of a group whose chain has at most `fuel` groups. -/
def overlay (prev : ℕ → Option ℕ) (delta : ℕ → Dict κ ν) : ℕ → ℕ → Dict κ ν
  | 0, _ => ∅
  | fuel + 1, group =>
    match prev group with
    | none => delta group
    | some prevGroup => (overlay prev delta fuel prevGroup).update (delta group).items

/-- The deltas along the chain of previous groups, nearest group first. -/
def chainState (prev : ℕ → Option ℕ) (delta : ℕ → Dict κ ν) (group : ℕ) : Dict κ ν :=
  overlay prev delta (group + 1) group

section
variable {prev : ℕ → Option ℕ} {delta : ℕ → Dict κ ν}
  (hlt : ∀ group prevGroup, prev group = some prevGroup → prevGroup < group)

/-- The groups of the chain of previous groups that starts at a group. -/
def InChain (prev : ℕ → Option ℕ) : ℕ → ℕ → Prop :=
  Relation.ReflTransGen fun group prevGroup => prev group = some prevGroup

variable {group group' : ℕ}

theorem inChain_iff : InChain prev group group' ↔
    group' = group ∨ ∃ prevGroup, prev group = some prevGroup ∧ InChain prev prevGroup group' := by
  unfold InChain
  rw [Relation.ReflTransGen.cases_head_iff, eq_comm]

include hlt

theorem overlay_of_lt : ∀ {fuel fuel' group : ℕ}, group < fuel → group < fuel' →
      overlay prev delta fuel group = overlay prev delta fuel' group
  | 0, _, _, h, _ => nomatch h
  | _ + 1, 0, _, _, h => nomatch h
  | fuel + 1, fuel' + 1, group, h, h' => by
    unfold overlay
    split
    · rfl
    next prevGroup hprev =>
      have hprevlt := hlt group prevGroup hprev
      rw [overlay_of_lt (by omega) (show _ < fuel' by omega)]

/-- The map of a group is its delta over the map of the previous group. -/
theorem lookup_chainState (group : ℕ) (k : κ) :
    (chainState prev delta group).lookup k = ((delta group).lookup k).or
      ((prev group).bind fun prevGroup => (chainState prev delta prevGroup).lookup k) := by
  rw [chainState, overlay]
  cases hprev : prev group with
  | none => exact Option.or_none.symm
  | some prevGroup =>
    have hprevlt := hlt group prevGroup hprev
    rw [Dict.lookup_update_items, overlay_of_lt hlt hprevlt (Nat.lt_succ_self prevGroup)]
    rfl

variable {delta' : ℕ → Dict κ ν} {prev' : ℕ → Option ℕ}

/-- Only the groups of the chain matter: two forests that agree on groups which are closed under taking
the previous group give these groups the same maps. -/
theorem lookup_chainState_congr {S : ℕ → Prop}
    (hclosed : ∀ group prevGroup, S group → prev group = some prevGroup → S prevGroup)
    (hprev : ∀ group, S group → prev' group = prev group)
    (hdelta : ∀ group k, S group → (delta' group).lookup k = (delta group).lookup k)
    (hlt' : ∀ group prevGroup, prev' group = some prevGroup → prevGroup < group) (k : κ) :
    ∀ {group : ℕ}, S group →
      (chainState prev' delta' group).lookup k = (chainState prev delta group).lookup k := by
  intro group
  induction group using Nat.strong_induction_on with
  | _ group ih =>
    intro hS
    rw [lookup_chainState hlt, lookup_chainState hlt', hprev group hS, hdelta group k hS]
    cases hp : prev group with
    | none => rfl
    | some prevGroup =>
      rw [Option.bind_some, Option.bind_some,
        ih prevGroup (hlt group prevGroup hp) (hclosed group prevGroup hS hp)]

/-- Replacing the delta of one group by its map, with no previous group, changes no map. -/
theorem lookup_chainState_flatten (flat : ℕ)
    (hprev : ∀ group, prev' group = if group = flat then none else prev group)
    (hdelta : ∀ group k, (delta' group).lookup k =
      if group = flat then (chainState prev delta flat).lookup k else (delta group).lookup k) (k : κ)
    (group : ℕ) : (chainState prev' delta' group).lookup k = (chainState prev delta group).lookup k := by
  have hlt' : ∀ group prevGroup, prev' group = some prevGroup → prevGroup < group := by
    intro group prevGroup h
    rw [hprev group] at h
    exact hlt group prevGroup (Option.ite_none_left_eq_some.mp h).2
  induction group using Nat.strong_induction_on with
  | _ group ih =>
    rw [lookup_chainState hlt', hprev group, hdelta group k]
    by_cases hflat : group = flat
    · rw [if_pos hflat, if_pos hflat, Option.bind_none, Option.or_none, hflat]
    · rw [if_neg hflat, if_neg hflat, lookup_chainState hlt group]
      cases hp : prev group with
      | none => rfl
      | some prevGroup => rw [Option.bind_some, Option.bind_some, ih prevGroup (hlt group prevGroup hp)]

theorem InChain.le (h : InChain prev group group') : group' ≤ group := by
  induction h with
  | refl => exact Nat.le_refl _
  | tail _ hprev ih => exact Nat.le_trans (Nat.le_of_lt (hlt _ _ hprev)) ih

/-- The value of a key is the one in the delta of the greatest group of the chain that has the key. -/
theorem lookup_chainState_eq_some {k : κ} {v : ν} :
    ∀ {group : ℕ}, (chainState prev delta group).lookup k = some v ↔
      ∃ group', InChain prev group group' ∧ (delta group').lookup k = some v ∧
        ∀ other, InChain prev group other → k ∈ delta other → other ≤ group' := by
  intro group
  induction group using Nat.strong_induction_on with
  | _ group ih =>
    rw [lookup_chainState hlt]
    cases hdelta : (delta group).lookup k with
    | some v' =>
      rw [Option.some_or, Option.some.injEq]
      constructor
      · intro hv
        exact ⟨group, .refl, hv ▸ hdelta, fun other hchain _ => hchain.le hlt⟩
      · intro h
        obtain ⟨group', hchain, hlookup, hmax⟩ := h
        have hge := hmax group .refl (Dict.mem_of_lookup hdelta)
        rw [le_antisymm (hchain.le hlt) hge, hdelta] at hlookup
        exact Option.some.inj hlookup
    | none =>
      have hself : k ∉ delta group := AList.lookup_eq_none.mp hdelta
      rw [Option.none_or]
      cases hprev : prev group with
      | none =>
        refine ⟨fun h => (nomatch h), fun h => ?_⟩
        obtain ⟨group', hchain, hlookup, _⟩ := h
        rcases inChain_iff.mp hchain with rfl | ⟨prevGroup, hprev', _⟩
        · exact absurd (Dict.mem_of_lookup hlookup) hself
        · exact absurd (hprev.symm.trans hprev') (fun h => (nomatch h))
      | some prevGroup =>
        -- the group itself does not have the key, so the chain may start at the previous group
        have hchain : ∀ {other}, k ∈ delta other →
            (InChain prev group other ↔ InChain prev prevGroup other) := by
          intro other hmem
          rw [inChain_iff]
          constructor
          · intro h
            rcases h with rfl | ⟨prevGroup', hprev', h⟩
            · exact absurd hmem hself
            · rw [Option.some.inj (hprev.symm.trans hprev')]
              exact h
          · exact fun h => .inr ⟨prevGroup, hprev, h⟩
        rw [Option.bind_some, ih prevGroup (hlt group prevGroup hprev)]
        refine exists_congr fun group' => ?_
        constructor
        · intro h
          have hmem := Dict.mem_of_lookup h.2.1
          exact ⟨(hchain hmem).mpr h.1, h.2.1, fun other h' hk => h.2.2 other ((hchain hk).mp h') hk⟩
        · intro h
          have hmem := Dict.mem_of_lookup h.2.1
          exact ⟨(hchain hmem).mp h.1, h.2.1, fun other h' hk => h.2.2 other ((hchain hk).mpr h') hk⟩

end
end Synapse.Util
