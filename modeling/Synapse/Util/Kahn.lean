import Synapse.Util.Reach

/-!
# Kahn's algorithm, abstractly

A node depends on others.  Kahn's algorithm outputs, again and again, a node that is left and depends
on nothing that is left; among the candidates it takes the one with the least key.  `KahnOrder` is
this as a relation between the nodes that are left and the list that is output, so that an
implementation with counters and a heap can be compared with it.

The relation determines the list (when keys tell nodes apart), lists every node at most once and
after its dependencies, and, if the dependencies have no cycle, lists all of them.
-/

namespace Synapse.Util

open Finset

variable {α β : Type*} [DecidableEq α] [LinearOrder β] {deps : α → α → Prop} {key : α → β}
  {left nodes done : Finset α} {l l' : List α} {n m : α}

/-- A node that is left and depends on nothing that is left. -/
def Ready (deps : α → α → Prop) (left : Finset α) (n : α) : Prop := n ∈ left ∧ ∀ m ∈ left, ¬ deps n m

/-- A heap of the ready nodes: after its head is output, what is ready was in the heap before, or has
waited for the head only. -/
theorem mem_heap_iff_ready {heap : List α} (hnodup : (m :: heap).Nodup)
    (hheap : ∀ {n}, n ∈ m :: heap ↔ Ready deps left n) :
    (n ∈ heap ∨ (n ∈ left ∧ deps n m) ∧ ∀ k ∈ left.erase m, ¬ deps n k) ↔
      Ready deps (left.erase m) n := by
  have hm := hheap.mp List.mem_cons_self
  constructor
  · rintro (hn | ⟨⟨hleft, hdep⟩, hnone⟩)
    · have hready := hheap.mp (List.mem_cons_of_mem m hn)
      refine ⟨mem_erase.mpr ⟨?_, hready.1⟩, fun k hk => hready.2 k (mem_of_mem_erase hk)⟩
      rintro rfl
      exact (List.nodup_cons.mp hnodup).1 hn
    · refine ⟨mem_erase.mpr ⟨?_, hleft⟩, hnone⟩
      rintro rfl
      exact hm.2 n hleft hdep
  · rintro ⟨hn, hnone⟩
    obtain ⟨hne, hleft⟩ := mem_erase.mp hn
    by_cases hdep : deps n m
    · exact .inr ⟨⟨hleft, hdep⟩, hnone⟩
    · have hready : Ready deps left n := by
        refine ⟨hleft, fun k hk hnk => hnone k (mem_erase.mpr ⟨?_, hk⟩) hnk⟩
        rintro rfl
        exact hdep hnk
      exact .inl ((List.mem_cons.mp (hheap.mpr hready)).resolve_left hne)

/-- What waits for a ready node is left. -/
theorem dependant_iff (hm : Ready deps left m) (hsub : left ⊆ nodes)
    (hsettled : ∀ {n k}, n ∈ nodes → n ∉ left → k ∈ left → ¬ deps n k) :
    n ∈ nodes ∧ deps n m ↔ n ∈ left ∧ deps n m := by
  refine and_congr_left fun hdep => ⟨fun hn => ?_, fun hn => hsub hn⟩
  by_contra hnot
  exact hsettled hn hnot hm.1 hdep

/-- What was output depends on nothing that is left. -/
theorem settled_erase (hm : Ready deps left m)
    (hsettled : ∀ {n k}, n ∈ nodes → n ∉ left → k ∈ left → ¬ deps n k) {k : α} (hn : n ∈ nodes)
    (hnot : n ∉ left.erase m) (hk : k ∈ left.erase m) : ¬ deps n k := by
  have hkleft := mem_of_mem_erase hk
  by_cases hne : n = m
  · subst hne
    exact hm.2 k hkleft
  · exact hsettled hn (fun hl => hnot (mem_erase.mpr ⟨hne, hl⟩)) hkleft

omit [DecidableEq α] in
theorem not_ready_of_card (h : left.card ≤ 0) : ¬ Ready deps left n := by
  rw [card_eq_zero.mp (Nat.le_zero.mp h)]
  exact fun hn => notMem_empty n hn.1

/-- The list that Kahn's algorithm outputs when `left` is left. -/
inductive KahnOrder (deps : α → α → Prop) (key : α → β) : Finset α → List α → Prop
  | stop {left : Finset α} (hnone : ∀ n, ¬ Ready deps left n) : KahnOrder deps key left []
  | next {left : Finset α} {n : α} {l : List α} (hn : Ready deps left n)
      (hmin : ∀ m, Ready deps left m → key n ≤ key m)
      (hl : KahnOrder deps key (left.erase n) l) : KahnOrder deps key left (n :: l)

namespace KahnOrder

/-- Keys that tell nodes apart determine the order. -/
theorem unique (hkey : ∀ n ∈ left, ∀ m ∈ left, key n = key m → n = m)
    (h : KahnOrder deps key left l) (h' : KahnOrder deps key left l') : l = l' := by
  induction h generalizing l' with
  | stop hnone =>
    cases h' with
    | stop _ => rfl
    | next hn _ _ => exact absurd hn (hnone _)
  | @next left n l hn hmin _ ih =>
    cases h' with
    | stop hnone => exact absurd hn (hnone _)
    | @next _ n' l' hn' hmin' hl' =>
      obtain rfl : n = n' := hkey n hn.1 n' hn'.1 (le_antisymm (hmin n' hn') (hmin' n hn))
      rw [ih (fun a ha b hb => hkey a (mem_of_mem_erase ha) b (mem_of_mem_erase hb)) hl']

/-- Only the dependencies of the nodes that are left matter. -/
theorem congr {deps' : α → α → Prop} (hdeps : ∀ n ∈ left, ∀ m, deps n m ↔ deps' n m)
    (h : KahnOrder deps key left l) : KahnOrder deps' key left l := by
  have hready : ∀ {left' : Finset α}, (∀ n ∈ left', ∀ m, deps n m ↔ deps' n m) →
      ∀ n, Ready deps left' n ↔ Ready deps' left' n :=
    fun heq n => and_congr_right fun hn => forall₂_congr fun m _ => not_congr (heq n hn m)
  induction h with
  | stop hnone => exact .stop fun n hn => hnone n ((hready hdeps n).mpr hn)
  | next hn hmin _ ih =>
    refine .next ((hready hdeps _).mp hn) (fun m hm => hmin m ((hready hdeps m).mpr hm)) (ih ?_)
    exact fun m hm => hdeps m (mem_of_mem_erase hm)

/-- Only the keys of the nodes that are left matter. -/
theorem congr_key {key' : α → β} (hkey : ∀ n ∈ left, key n = key' n) (h : KahnOrder deps key left l) :
    KahnOrder deps key' left l := by
  induction h with
  | stop hnone => exact .stop hnone
  | next hn hmin _ ih =>
    refine .next hn (fun m hm => ?_) (ih fun m hm => hkey m (mem_of_mem_erase hm))
    rw [← hkey _ hn.1, ← hkey m hm.1]
    exact hmin m hm

theorem mem_left (h : KahnOrder deps key left l) : ∀ n ∈ l, n ∈ left := by
  induction h with
  | stop => exact nofun
  | next hn _ _ ih => exact List.forall_mem_cons.mpr ⟨hn.1, fun m hm => mem_of_mem_erase (ih m hm)⟩

theorem nodup (h : KahnOrder deps key left l) : l.Nodup := by
  induction h with
  | stop => exact List.nodup_nil
  | next _ _ hl ih =>
    refine List.nodup_cons.mpr ⟨fun hmem => ?_, ih⟩
    exact notMem_erase _ _ (hl.mem_left _ hmem)

/-- The rest of the list is an order of the nodes that are left by then. -/
theorem drop {before : List α} (h : KahnOrder deps key left (before ++ l)) :
    KahnOrder deps key (left \ before.toFinset) l := by
  induction before generalizing left with
  | nil =>
    rw [List.toFinset_nil, sdiff_empty]
    exact h
  | cons a before ih =>
    cases h with
    | next _ _ hl =>
      rw [List.toFinset_cons, sdiff_insert, ← erase_sdiff_comm]
      exact ih hl

/-- A node comes after its dependencies, and before those with a greater key that could have come. -/
theorem of_append {before rest : List α} (h : KahnOrder deps key left (before ++ n :: rest)) :
    (∀ m ∈ left, deps n m → m ∈ before) ∧
      ∀ m ∈ left, m ∉ before → (∀ k ∈ left, deps m k → k ∈ before) → key n ≤ key m := by
  have hrest : ∀ {m}, m ∈ left \ before.toFinset ↔ m ∈ left ∧ m ∉ before := by
    simp
  cases h.drop with
  | next hready hmin _ =>
    refine ⟨fun m hm hnm => ?_, fun m hm hnot hdeps => hmin m ⟨hrest.mpr ⟨hm, hnot⟩, fun k hk hmk => ?_⟩⟩
    · by_contra hnot
      exact hready.2 m (hrest.mpr ⟨hm, hnot⟩) hnm
    · exact (hrest.mp hk).2 (hdeps k (hrest.mp hk).1 hmk)

end KahnOrder

omit [DecidableEq α] in
theorem exists_ready (hdeps : Acyclic deps) (hleft : left.Nonempty) : ∃ n, Ready deps left n := by
  obtain ⟨n, hn, hmin⟩ := left.exists_min_image (height deps left) hleft
  refine ⟨n, hn, fun m hm hnm => ?_⟩
  exact absurd (height_lt_of_edge hdeps hm hnm) (Nat.not_lt.mpr (hmin m hm))

/-- Without cycles, every node is listed. -/
theorem KahnOrder.mem_iff (hdeps : Acyclic deps) (h : KahnOrder deps key left l) : n ∈ l ↔ n ∈ left := by
  refine ⟨h.mem_left n, ?_⟩
  induction h with
  | stop hnone =>
    intro hn
    obtain ⟨m, hm⟩ := exists_ready hdeps ⟨n, hn⟩
    exact absurd hm (hnone m)
  | @next left m l _ _ _ ih =>
    intro hn
    by_cases hnm : n = m
    · exact List.mem_cons.mpr (.inl hnm)
    · exact List.mem_cons_of_mem _ (ih (mem_erase.mpr ⟨hnm, hn⟩))

end Synapse.Util
