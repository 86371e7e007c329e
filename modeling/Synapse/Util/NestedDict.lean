import Synapse.Util.Dict

/-!
# Dictionaries of dictionaries of dictionaries

A value is stored under three keys, and `setdefault` makes the inner dictionaries when they are needed.
`find` gives the value of three keys.  Every key has at most one entry (`nodup_entries`).
-/

namespace Synapse.Util

open List

/-- `{k₁: {k₂: {k₃: v}}}`. -/
abbrev NestedDict (α β γ ν : Type) := Dict α (Dict β (Dict γ ν))

namespace NestedDict
variable {α β γ ν : Type} [DecidableEq α] [DecidableEq β] [DecidableEq γ] (d : NestedDict α β γ ν)

/-- `d.setdefault(k₁, {}).setdefault(k₂, {})`, as far as it is read. -/
def inner (k₁ : α) (k₂ : β) : Dict γ ν := (d.getD k₁ ∅).getD k₂ ∅

/-- Another inner dictionary for two keys. -/
def setInner (k₁ : α) (k₂ : β) (content : Dict γ ν) : NestedDict α β γ ν :=
  d.insert k₁ ((d.getD k₁ ∅).insert k₂ content)

variable (key : α × β × γ)

def find : Option ν := (d.inner key.1 key.2.1).lookup key.2.2

/-- All values with their keys. -/
def entries : List ((α × β × γ) × ν) :=
  d.items.flatMap fun item₁ => item₁.2.items.flatMap fun item₂ => item₂.2.items.map fun item₃ =>
    ((item₁.1, item₂.1, item₃.1), item₃.2)

theorem find_setInner {d : NestedDict α β γ ν} {k₁ : α} {k₂ : β} {content : Dict γ ν}
    {key : α × β × γ} : (d.setInner k₁ k₂ content).find key =
      if key.1 = k₁ ∧ key.2.1 = k₂ then content.lookup key.2.2 else d.find key := by
  unfold find inner setInner
  rw [Dict.getD_insert]
  by_cases h₁ : key.1 = k₁
  · rw [if_pos h₁, Dict.getD_insert]
    by_cases h₂ : key.2.1 = k₂
    · rw [if_pos h₂, if_pos ⟨h₁, h₂⟩]
    · rw [if_neg h₂, if_neg (fun h => h₂ h.2), h₁]
  · rw [if_neg h₁, if_neg (fun h => h₁ h.1)]

/-! ## Entries -/

theorem filter_entries :
    (d.entries.filter fun entry => entry.1 = key) = (d.find key).toList.map (key, ·) := by
  obtain ⟨k₁, k₂, k₃⟩ := key
  -- what is below other keys is not wanted
  have hothers : ∀ (k₁' : α) (k₂' : β) (d₃ : Dict γ ν), k₁' ≠ k₁ ∨ k₂' ≠ k₂ →
      (d₃.items.map fun item => ((k₁', k₂', item.1), item.2)).filter
        (fun entry => entry.1 = (k₁, k₂, k₃)) = [] := by
    intro k₁' k₂' d₃ hne
    refine filter_eq_nil_iff.mpr fun entry hentry => ?_
    obtain ⟨item, _, rfl⟩ := mem_map.mp hentry
    rw [decide_eq_true_iff]
    intro heq
    exact hne.elim (fun h => h (congrArg (·.1) heq)) fun h => h (congrArg (·.2.1) heq)
  have houter : ∀ (k₁' : α) (d₂ : Dict β (Dict γ ν)), k₁' ≠ k₁ →
      (d₂.items.flatMap fun item₂ => item₂.2.items.map fun item =>
        ((k₁', item₂.1, item.1), item.2)).filter (fun entry => entry.1 = (k₁, k₂, k₃)) = [] := by
    intro k₁' d₂ hne
    rw [filter_flatMap]
    exact flatMap_eq_nil_iff.mpr fun item _ => hothers k₁' item.1 item.2 (.inl hne)
  have hinner : ∀ d₃ : Dict γ ν, (d₃.items.map fun item => ((k₁, k₂, item.1), item.2)).filter
      (fun entry => entry.1 = (k₁, k₂, k₃)) = (d₃.lookup k₃).toList.map ((k₁, k₂, k₃), ·) := by
    intro d₃
    have hcongr : ∀ item ∈ d₃.items, ((fun entry => decide (entry.1 = (k₁, k₂, k₃))) ∘
          fun item => ((k₁, k₂, item.1), item.2)) item = decide (item.1 = k₃) := by
      intro item _
      simp
    rw [filter_map, filter_congr hcongr, Dict.filter_items_key, map_map]
    rfl
  unfold entries find inner
  rw [Dict.filter_flatMap_items houter]
  unfold Dict.getD
  cases d.lookup k₁ with
  | none => rfl
  | some d₂ =>
    rw [Option.toList_some, flatMap_singleton, Option.getD_some,
      Dict.filter_flatMap_items fun k₂' d₃ hne => hothers k₁ k₂' d₃ (.inr hne)]
    cases d₂.lookup k₂ with
    | none => rfl
    | some d₃ =>
      rw [Option.toList_some, flatMap_singleton, Option.getD_some]
      exact hinner d₃

theorem nodup_entries : (d.entries.map Prod.fst).Nodup := by
  refine nodup_iff_count_le_one.mpr fun key => ?_
  have hcount : (d.entries.map Prod.fst).count key =
      (d.entries.filter fun entry => entry.1 = key).length := by
    rw [List.count, countP_map, countP_eq_length_filter]
    refine congrArg List.length (filter_congr fun entry _ => ?_)
    rw [Bool.eq_iff_iff, decide_eq_true_iff]
    exact beq_iff_eq
  rw [hcount, filter_entries, length_map]
  cases d.find key with
  | none => exact Nat.zero_le 1
  | some v => exact le_refl 1

end NestedDict
end Synapse.Util
