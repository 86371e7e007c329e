import Synapse.Util.Select

/-!
# The last elements of a sorted list

A worker that keeps its queue sorted and takes the last `n` entries takes exactly those entries with
fewer than `n` entries above them.  The second description mentions no list, so it can be used to
say what the worker does without saying how the queue is laid out.
-/

namespace Synapse.Util

open List

variable {α : Type*} [LinearOrder α] {l : List α} {n : ℕ} {x : α}

/-- The elements with fewer than `n` elements above them: the `n` greatest. -/
def greatest (n : ℕ) (q : Finset α) : Finset α := q.filter fun x => (q.filter fun y => x < y).card < n

theorem greatest_subset {q : Finset α} : greatest n q ⊆ q := Finset.filter_subset _ _

/-- A sorted list without repetitions is strictly sorted. -/
theorem pairwise_lt_insertionSort (hl : l.Nodup) : (l.insertionSort (· ≤ ·)).Pairwise (· < ·) := by
  have hle : (l.insertionSort (· ≤ ·)).Pairwise (· ≤ ·) := pairwise_insertionSort _ l
  have hne : (l.insertionSort (· ≤ ·)).Pairwise (· ≠ ·) := (perm_insertionSort _ l).nodup_iff.mpr hl
  exact (hle.and hne).imp fun h => lt_of_le_of_ne h.1 h.2

theorem mem_drop_iff_of_sorted (hl : l.Pairwise (· < ·)) :
    x ∈ l.drop (l.length - n) ↔ x ∈ l ∧ (l.filter fun y => x < y).length < n := by
  -- the last entries are the first ones of the list that is sorted the other way
  have hrev : Increasing OrderDual.toDual l.reverse := pairwise_reverse.mpr hl
  have htake : x ∈ l.reverse.take n ↔ _ := mem_take_iff_countP_lt hrev
  rwa [take_reverse, mem_reverse, mem_reverse, countP_reverse, countP_eq_length_filter] at htake

/-- The last `n` entries of a strictly sorted list are its `n` greatest. -/
theorem mem_drop_iff_mem_greatest (hl : l.Pairwise (· < ·)) :
    x ∈ l.drop (l.length - n) ↔ x ∈ greatest n l.toFinset := by
  have hcard : (l.toFinset.filter fun y => x < y).card = (l.filter fun y => x < y).length := by
    have hnodup : (l.filter fun y => x < y).Nodup := (hl.imp fun h => h.ne).filter _
    rw [← toFinset_card_of_nodup hnodup, toFinset_filter]
    simp only [decide_eq_true_eq]
  rw [mem_drop_iff_of_sorted hl, greatest, Finset.mem_filter, mem_toFinset, hcard]

theorem nonempty_greatest {q : Finset α} (hq : q.Nonempty) (hn : 0 < n) : (greatest n q).Nonempty := by
  refine ⟨q.max' hq, ?_⟩
  rw [greatest, Finset.mem_filter]
  refine ⟨q.max'_mem hq, ?_⟩
  have hnone : (q.filter fun y => q.max' hq < y) = ∅ := by
    rw [Finset.filter_eq_empty_iff]
    intro y hy
    exact (q.le_max' y hy).not_gt
  rw [hnone, Finset.card_empty]
  exact hn

end Synapse.Util
