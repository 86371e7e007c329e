import Mathlib.Data.List.Nodup
import Mathlib.Data.List.Perm.Basic

/-!
# The latest of each key

From a list of values that have come one after the other, `lastOfEach` keeps the last one of each key.
What it keeps of some keys depends only on the values with these keys (`lastOfEach_filter`), so a list may
be looked at key by key: two lists have the same elements if they have the same for every key
(`perm_iff_filter_perm`).
-/

namespace Synapse.Util

open List

section
variable {α κ κ' : Type} [DecidableEq κ] [DecidableEq κ'] {key : α → κ} {key' : α → κ'}

def lastOfEach (key : α → κ) : List α → List α
  | [] => []
  | x :: xs => if key x ∈ xs.map key then lastOfEach key xs else x :: lastOfEach key xs

theorem lastOfEach_sublist : ∀ xs : List α, (lastOfEach key xs).Sublist xs
  | [] => .slnil
  | x :: xs => by
    unfold lastOfEach
    split
    · exact (lastOfEach_sublist xs).cons x
    · exact (lastOfEach_sublist xs).cons_cons x

theorem mem_map_lastOfEach {k : κ} : ∀ {xs : List α}, k ∈ (lastOfEach key xs).map key ↔ k ∈ xs.map key
  | [] => Iff.rfl
  | x :: xs => by
    unfold lastOfEach
    split
    next hmem =>
      rw [mem_map_lastOfEach, map_cons, mem_cons]
      exact ⟨.inr, fun h => h.elim (fun heq => heq ▸ hmem) id⟩
    · rw [map_cons, map_cons, mem_cons, mem_cons, mem_map_lastOfEach]

theorem nodup_map_lastOfEach : ∀ xs : List α, ((lastOfEach key xs).map key).Nodup
  | [] => .nil
  | x :: xs => by
    unfold lastOfEach
    split
    · exact nodup_map_lastOfEach xs
    next hnew => exact nodup_cons.mpr ⟨fun h => hnew (mem_map_lastOfEach.mp h), nodup_map_lastOfEach xs⟩

theorem lastOfEach_of_nodup : ∀ {xs : List α}, (xs.map key).Nodup → lastOfEach key xs = xs
  | [], _ => rfl
  | x :: xs, h => by
    obtain ⟨hnew, hnodup⟩ := nodup_cons.mp h
    unfold lastOfEach
    rw [if_neg hnew, lastOfEach_of_nodup hnodup]

/-- If nothing is dropped, the keys are different. -/
theorem nodup_of_length_lastOfEach {xs : List α} (h : (lastOfEach key xs).length = xs.length) :
    (xs.map key).Nodup := by
  have heq : lastOfEach key xs = xs := (lastOfEach_sublist xs).eq_of_length h
  rw [← heq]
  exact nodup_map_lastOfEach xs

/-- What is kept of some keys depends on the values with these keys. -/
theorem lastOfEach_filter (p : κ → Bool) : ∀ xs : List α,
    (lastOfEach key xs).filter (fun x => p (key x)) = lastOfEach key (xs.filter fun x => p (key x))
  | [] => rfl
  | x :: xs => by
    have ih := lastOfEach_filter p xs
    have hcons : ∀ ys, (x :: ys).filter (fun x => p (key x)) =
        if p (key x) then x :: ys.filter (fun x => p (key x)) else ys.filter fun x => p (key x) :=
      fun ys => filter_cons
    rw [hcons]
    by_cases hp : p (key x) = true
    · rw [if_pos hp]
      have hmem : key x ∈ (xs.filter fun x => p (key x)).map key ↔ key x ∈ xs.map key := by
        constructor
        · exact fun h => (filter_sublist.map key).subset h
        · intro h
          obtain ⟨x', hx', heq⟩ := mem_map.mp h
          exact mem_map.mpr ⟨x', mem_filter.mpr ⟨hx', heq ▸ hp⟩, heq⟩
      unfold lastOfEach
      by_cases hlater : key x ∈ xs.map key
      · rw [if_pos hlater, if_pos (hmem.mpr hlater), ih]
      · rw [if_neg hlater, if_neg (fun h => hlater (hmem.mp h)), hcons, if_pos hp, ih]
    · rw [if_neg hp, ← ih, lastOfEach]
      split
      · rfl
      · rw [hcons, if_neg hp]

/-- Of values with one key the last one is kept. -/
theorem lastOfEach_of_const {k : κ} : ∀ {xs : List α}, (∀ x ∈ xs, key x = k) →
    lastOfEach key xs = xs.getLast?.toList
  | [], _ => rfl
  | [_], _ => rfl
  | x :: y :: xs, h => by
    have hlater : key x ∈ (y :: xs).map key := by
      rw [h x mem_cons_self, ← h y (by simp)]
      exact mem_map_of_mem mem_cons_self
    unfold lastOfEach
    rw [if_pos hlater, lastOfEach_of_const fun x' hx' => h x' (mem_cons_of_mem _ hx'), getLast?_cons_cons]

/-- Two keys that distinguish the same values keep the same ones. -/
theorem lastOfEach_congr : ∀ {xs : List α}, (∀ x ∈ xs, ∀ y ∈ xs, key x = key y ↔ key' x = key' y) →
    lastOfEach key xs = lastOfEach key' xs
  | [], _ => rfl
  | x :: xs, h => by
    have ih : lastOfEach key xs = lastOfEach key' xs := lastOfEach_congr fun x hx y hy =>
      h x (mem_cons_of_mem _ hx) y (mem_cons_of_mem _ hy)
    have hmem : key x ∈ xs.map key ↔ key' x ∈ xs.map key' := by
      rw [mem_map, mem_map]
      refine exists_congr fun y => and_congr_right fun hy => ?_
      exact h y (mem_cons_of_mem _ hy) x mem_cons_self
    unfold lastOfEach
    rw [ih]
    exact if_congr hmem rfl rfl

/-- Two lists have the same elements if they have the same for every key. -/
theorem perm_iff_filter_perm {xs ys : List α} : xs.Perm ys ↔
    ∀ k, (xs.filter fun x => key x = k).Perm (ys.filter fun x => key x = k) := by
  classical
  constructor
  · exact fun h k => h.filter _
  · intro h
    refine perm_iff_count.mpr fun x => ?_
    have hcount := (h (key x)).count_eq x
    rwa [count_filter (by simp), count_filter (by simp)] at hcount

end
end Synapse.Util
