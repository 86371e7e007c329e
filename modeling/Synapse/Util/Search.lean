import Mathlib.Data.Finset.Card

/-!
# Searching level by level

A search keeps the set of nodes it has seen and expands, round after round, the nodes of the last
round: what they lead to and has not been seen is the next round.  `search` is this loop with a bound
on the number of rounds.  It adds exactly what can be reached from the nodes it is started on, and as
many rounds as there are nodes left to see are enough.
-/

namespace Synapse.Util

open Relation Finset

variable {α : Type*} [DecidableEq α]

/-- The search; `next` gives what a set of nodes leads to, and `none` means out of rounds. -/
def search (next : Finset α → Finset α) : ℕ → Finset α → Finset α → Option (Finset α)
  | 0, check, seen => if check = ∅ then some seen else none
  | rounds + 1, check, seen =>
    if check = ∅ then some seen
    else search next rounds (next check \ seen) (seen ∪ (next check \ seen))

section
variable {next : Finset α → Finset α} {r : α → α → Prop} {check seen : Finset α} {rounds : ℕ}

/-- A path from what has been seen or is being expanded stays there for one round, or passes through a
new node. -/
theorem mem_or_transGen_of_transGen (hnext : ∀ C y, y ∈ next C ↔ ∃ x ∈ C, r x y)
    (hclosed : ∀ x ∈ seen, x ∉ check → ∀ y, r x y → y ∈ seen) {x y : α} (hx : x ∈ seen ∨ x ∈ check)
    (hxy : TransGen r x y) :
    (y ∈ seen ∨ ∃ x ∈ check, r x y) ∨ ∃ z ∈ next check \ seen, TransGen r z y := by
  have hedge : ∀ {x z}, x ∈ seen ∨ x ∈ check → r x z → z ∈ seen ∨ ∃ x ∈ check, r x z := by
    intro x z hx hxz
    by_cases hcheck : x ∈ check
    · exact .inr ⟨x, hcheck, hxz⟩
    · exact .inl (hclosed x (hx.resolve_right hcheck) hcheck z hxz)
  induction hxy using TransGen.head_induction_on with
  | single hxy => exact .inl (hedge hx hxy)
  | @head x z hxz hzy ih =>
    by_cases hz : z ∈ seen
    · exact ih (.inl hz)
    · have hznext := (hnext check z).mpr ((hedge hx hxz).resolve_left hz)
      exact .inr ⟨z, mem_sdiff.mpr ⟨hznext, hz⟩, hzy⟩

/-- Enough rounds: everything seen but the current round has been expanded, and there are at least as
many rounds as nodes that have not been seen. -/
theorem search_spec (univ : Finset α) (hnext : ∀ C y, y ∈ next C ↔ ∃ x ∈ C, r x y)
    (huniv : ∀ x y, r x y → y ∈ univ) (hclosed : ∀ x ∈ seen, x ∉ check → ∀ y, r x y → y ∈ seen)
    (hrounds : check = ∅ ∨ (univ \ seen).card < rounds) :
    ∃ result, search next rounds check seen = some result ∧
      ∀ y, y ∈ result ↔ y ∈ seen ∨ ∃ x ∈ check, TransGen r x y := by
  induction rounds generalizing check seen with
  | zero =>
    have hempty : check = ∅ := hrounds.resolve_right (Nat.not_lt_zero _)
    subst hempty
    exact ⟨seen, if_pos rfl, fun y => by simp⟩
  | succ rounds ih =>
    unfold search
    split
    next hempty =>
      subst hempty
      exact ⟨seen, rfl, fun y => by simp⟩
    next hne =>
      have hcard := hrounds.resolve_left hne
      -- what has been seen is expanded after this round, but for the new nodes
      have hclosed' : ∀ x ∈ seen ∪ (next check \ seen), x ∉ next check \ seen →
          ∀ y, r x y → y ∈ seen ∪ (next check \ seen) := by
        intro x hx hnew y hxy
        have hseen : x ∈ seen := (mem_union.mp hx).resolve_right hnew
        rw [union_sdiff_self_eq_union, mem_union]
        by_cases hcheck : x ∈ check
        · exact .inr ((hnext check y).mpr ⟨x, hcheck, hxy⟩)
        · exact .inl (hclosed x hseen hcheck y hxy)
      have hrounds' : next check \ seen = ∅ ∨ (univ \ (seen ∪ (next check \ seen))).card < rounds := by
        by_cases hempty : next check \ seen = ∅
        · exact .inl hempty
        · right
          obtain ⟨y, hy⟩ := nonempty_iff_ne_empty.mpr hempty
          obtain ⟨hynext, hynot⟩ := mem_sdiff.mp hy
          obtain ⟨x, _, hxy⟩ := (hnext check y).mp hynext
          have hlt : (univ \ (seen ∪ (next check \ seen))).card < (univ \ seen).card := by
            refine card_lt_card ⟨sdiff_subset_sdiff le_rfl subset_union_left, ?_⟩
            intro hsub
            have hmem := hsub (mem_sdiff.mpr ⟨huniv x y hxy, hynot⟩)
            exact (mem_sdiff.mp hmem).2 (mem_union_right _ hy)
          omega
      obtain ⟨result, hrun, hresult⟩ := ih hclosed' hrounds'
      refine ⟨result, hrun, fun y => (hresult y).trans ?_⟩
      rw [union_sdiff_self_eq_union, mem_union, hnext]
      constructor
      · rintro ((hy | ⟨x, hx, hxy⟩) | ⟨x, hx, hxy⟩)
        · exact .inl hy
        · exact .inr ⟨x, hx, .single hxy⟩
        · obtain ⟨z, hz, hzx⟩ := (hnext check x).mp (mem_sdiff.mp hx).1
          exact .inr ⟨z, hz, .head hzx hxy⟩
      · rintro (hy | ⟨x, hx, hxy⟩)
        · exact .inl (.inl hy)
        · exact mem_or_transGen_of_transGen hnext hclosed (.inr hx) hxy

end
end Synapse.Util
