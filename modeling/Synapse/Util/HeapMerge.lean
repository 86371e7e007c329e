import Mathlib.Data.List.Perm.Basic
import Mathlib.Order.Defs.PartialOrder

/-!
# Merging sorted lists

`heapq.merge` puts several lists together: it takes the least of their first elements, the one of the
earlier list if two are equal, until nothing is left.  It compares elements of different lists only, and
a comparison may fail.  The result has the elements of all lists, and if each of them is sorted by a key
that the comparison respects, so is the result; it does not matter how elements with equal keys compare.
-/

namespace Synapse.Util

open List

section
variable {α χ : Type}

/-- The least of the first elements, and the lists without it. -/
def popLeast (lt : α → α → Except χ Bool) : List (List α) → Except χ (Option (α × List (List α)))
  | [] => .ok none
  | [] :: lists => do
    match ← popLeast lt lists with
    | none => pure none
    | some (y, lists') => pure (some (y, [] :: lists'))
  | (x :: xs) :: lists => do
    match ← popLeast lt lists with
    | none => pure (some (x, xs :: lists))
    | some (y, lists') =>
      if ← lt y x then pure (some (y, (x :: xs) :: lists')) else pure (some (x, xs :: lists))

/-- As many elements as given, the least one first. -/
def popAll (lt : α → α → Except χ Bool) : ℕ → List (List α) → Except χ (List α)
  | 0, _ => .ok []
  | n + 1, lists => do
    match ← popLeast lt lists with
    | none => pure []
    | some (x, lists') => pure (x :: (← popAll lt n lists'))

variable (lt : α → α → Except χ Bool) (lists : List (List α))

/-- `heapq.merge`. -/
def heapMerge : Except χ (List α) := popAll lt lists.flatten.length lists

/-- Elements of different lists can be compared. -/
def Comparable : Prop := lists.Pairwise fun xs ys => ∀ x ∈ xs, ∀ y ∈ ys, ∃ b, lt y x = .ok b

/-- A comparison respects a key. -/
structure RespectsKey {κ : Type} [LE κ] (lt : α → α → Except χ Bool) (key : α → κ) : Prop where
  of_lt : ∀ {x y}, lt x y = .ok true → key x ≤ key y
  of_not_lt : ∀ {x y}, lt x y = .ok false → key y ≤ key x

variable {κ : Type} [Preorder κ] {lt : α → α → Except χ Bool} {key : α → κ}

/-- What `popLeast` does: it finds nothing if all lists are empty, and otherwise takes the first element
of one list. -/
theorem popLeast_spec (key : α → κ) : ∀ {lists : List (List α)}, Comparable lt lists →
    (popLeast lt lists = .ok none ∧ lists.flatten = []) ∨
      ∃ x xs front back, lists = front ++ (x :: xs) :: back ∧
        popLeast lt lists = .ok (some (x, front ++ xs :: back)) ∧
        (RespectsKey lt key → (∀ list ∈ lists, list.Pairwise fun x y => key x ≤ key y) →
          ∀ y ∈ lists.flatten, key x ≤ key y)
  | [], _ => .inl ⟨rfl, rfl⟩
  | [] :: lists, hcomp => by
    unfold popLeast
    rcases popLeast_spec key (pairwise_cons.mp hcomp).2 with ⟨hpop, hnone⟩ |
      ⟨x, xs, front, back, hlists, hpop, hleast⟩
    · rw [hpop]
      exact .inl ⟨rfl, hnone⟩
    · rw [hpop]
      refine .inr ⟨x, xs, [] :: front, back, by rw [hlists]; rfl, rfl, fun hrespects hsorted => ?_⟩
      exact hleast hrespects fun list hlist => hsorted list (mem_cons_of_mem _ hlist)
  | (x :: xs) :: lists, hcomp => by
    obtain ⟨hfirst, hrest⟩ := pairwise_cons.mp hcomp
    -- the elements of the first list are not below its first one
    have hbelow : (∀ list ∈ (x :: xs) :: lists, list.Pairwise fun x y => key x ≤ key y) →
        ∀ y ∈ x :: xs, key x ≤ key y := fun hsorted =>
      forall_mem_cons.mpr ⟨le_rfl, (pairwise_cons.mp (hsorted _ mem_cons_self)).1⟩
    unfold popLeast
    rcases popLeast_spec key hrest with ⟨hpop, hnone⟩ | ⟨y, ys, front, back, hlists, hpop, hleast⟩
    · rw [hpop]
      refine .inr ⟨x, xs, [], lists, rfl, rfl, fun _ hsorted z hz => hbelow hsorted z ?_⟩
      rwa [flatten_cons, hnone, append_nil] at hz
    · have hy : y ∈ lists.flatten := by
        rw [hlists, flatten_append]
        exact mem_append_cons_self
      obtain ⟨list, hlist, hylist⟩ := mem_flatten.mp hy
      obtain ⟨b, hb⟩ := hfirst list hlist x mem_cons_self y hylist
      rw [hpop]
      cases b with
      | true =>
        refine .inr ⟨y, ys, (x :: xs) :: front, back, by rw [hlists]; rfl, ?_, ?_⟩
        · show (do if ← lt y x then _ else _) = _
          rw [hb]
          rfl
        · intro hrespects hsorted
          refine forall_mem_append.mpr ⟨fun z hz => ?_, ?_⟩
          · exact le_trans (hrespects.of_lt hb) (hbelow hsorted z hz)
          · exact hleast hrespects fun l hl => hsorted l (mem_cons_of_mem _ hl)
      | false =>
        refine .inr ⟨x, xs, [], lists, rfl, ?_, ?_⟩
        · show (do if ← lt y x then _ else _) = _
          rw [hb]
          rfl
        · intro hrespects hsorted
          refine forall_mem_append.mpr ⟨hbelow hsorted, fun z hz => ?_⟩
          exact le_trans (hrespects.of_not_lt hb)
            (hleast hrespects (fun l hl => hsorted l (mem_cons_of_mem _ hl)) z hz)

theorem Comparable.pop {x : α} {xs : List α} {front back : List (List α)}
    (h : Comparable lt (front ++ (x :: xs) :: back)) : Comparable lt (front ++ xs :: back) := by
  obtain ⟨hfront, hback, hcross⟩ := pairwise_append.mp h
  obtain ⟨hlist, hback⟩ := pairwise_cons.mp hback
  refine pairwise_append.mpr ⟨hfront, pairwise_cons.mpr ⟨?_, hback⟩, ?_⟩
  · intro ys hys y hy
    exact hlist ys hys y (mem_cons_of_mem _ hy)
  · intro ys hys zs hzs
    rcases mem_cons.mp hzs with rfl | hzs
    · exact fun y hy z hz => hcross ys hys (x :: zs) mem_cons_self y hy z (mem_cons_of_mem _ hz)
    · exact hcross ys hys zs (mem_cons_of_mem _ hzs)

/-- Popping elements one by one gives all of them, sorted. -/
theorem popAll_spec (hrespects : RespectsKey lt key) : ∀ {n : ℕ} {lists : List (List α)},
    lists.flatten.length = n → Comparable lt lists →
    (∀ list ∈ lists, list.Pairwise fun x y => key x ≤ key y) →
    ∃ out, popAll lt n lists = .ok out ∧ out.Perm lists.flatten ∧ out.Pairwise fun x y => key x ≤ key y
  | 0, lists, hlength, _, _ => by
    rw [length_eq_zero_iff.mp hlength]
    exact ⟨[], rfl, .nil, .nil⟩
  | n + 1, lists, hlength, hcomp, hsorted => by
    unfold popAll
    rcases popLeast_spec key hcomp with ⟨_, hnone⟩ | ⟨x, xs, front, back, hlists, hpop, hleast⟩
    · rw [hnone] at hlength
      exact nomatch hlength
    · have hperm : (x :: (front ++ xs :: back).flatten).Perm lists.flatten := by
        rw [hlists, flatten_append, flatten_append, flatten_cons, flatten_cons]
        exact perm_middle.symm
      have hsorted' : ∀ list ∈ front ++ xs :: back, list.Pairwise fun x y => key x ≤ key y := by
        intro list hlist
        rcases mem_append.mp hlist with hlist | hlist
        · exact hsorted list (hlists ▸ mem_append_left _ hlist)
        · rcases mem_cons.mp hlist with rfl | hlist
          · exact (pairwise_cons.mp (hsorted (x :: list)
              (hlists ▸ mem_append_cons_self))).2
          · exact hsorted list (hlists ▸ mem_append_right _ (mem_cons_of_mem _ hlist))
      have hlength' : (front ++ xs :: back).flatten.length = n := by
        have := hperm.length_eq
        rw [length_cons] at this
        omega
      rw [hlists] at hcomp
      obtain ⟨out, hout, hperm', hsorted''⟩ := popAll_spec hrespects hlength' hcomp.pop hsorted'
      rw [hpop]
      refine ⟨x :: out, ?_, (hperm'.cons x).trans hperm, pairwise_cons.mpr ⟨?_, hsorted''⟩⟩
      · show (do pure (x :: (← popAll lt n (front ++ xs :: back)))) = _
        rw [hout]
        rfl
      · intro y hy
        apply hleast hrespects hsorted
        exact hperm.subset (mem_cons_of_mem _ (hperm'.subset hy))

/-- **The merge of sorted lists is sorted** and has the elements of all lists. -/
theorem heapMerge_spec {lists : List (List α)} (hrespects : RespectsKey lt key)
    (hcomp : Comparable lt lists) (hsorted : ∀ list ∈ lists, list.Pairwise fun x y => key x ≤ key y) :
    ∃ out, heapMerge lt lists = .ok out ∧ out.Perm lists.flatten ∧
      out.Pairwise fun x y => key x ≤ key y := popAll_spec hrespects rfl hcomp hsorted

end
end Synapse.Util
