import Mathlib.Data.Finset.Max
import Mathlib.Data.List.Chain

/-!
# Reachability in a finite acyclic graph

A graph is a relation `r`, an edge from `a` to `b` being `r a b`.  A list of nodes *reaches* a node
when the node is in the list or some path leads to it from a node of the list.  Given several lists,
the nodes reached by some of them but not by all are their **reach difference**.

Two general facts carry the proofs about walks of such a graph:

* adding one edge `u → v` lets a node reach exactly what it reached before and, if it reached `u`,
  everything that `v` reached (`reflTransGen_addEdge`);
* an acyclic graph has a height: the number of nodes below a node drops along every edge, so a walk
  level by level ends within as many levels as there are nodes (`height_lt_of_edge`).
-/

namespace Synapse.Util

open Relation Finset

variable {α : Type*} {r r' : α → α → Prop} {S S' : List α} {a b u v x : α}

/-- No node is below itself. -/
def Acyclic (r : α → α → Prop) : Prop := ∀ a, ¬ TransGen r a a

theorem Acyclic.ne_of_edge (h : Acyclic r) (hab : r a b) : a ≠ b := by
  rintro rfl
  exact h a (.single hab)

theorem Acyclic.not_edge_back (h : Acyclic r) (hab : ReflTransGen r a b) : ¬ r b a := by
  intro hba
  exact h b (.head' hba hab)

theorem Acyclic.mono (h : Acyclic r) (hsub : ∀ a b, r' a b → r a b) : Acyclic r' :=
  fun a ha => h a (TransGen.mono hsub _ _ ha)

/-- A graph whose edges all climb has no cycle. -/
theorem Acyclic.of_lt {f : α → ℕ} (h : ∀ a b, r a b → f a < f b) : Acyclic r := by
  have hpath : ∀ {a b}, TransGen r a b → f a < f b := by
    intro a b hab
    induction hab with
    | single hab => exact h _ _ hab
    | tail _ hbc ih => exact ih.trans (h _ _ hbc)
  exact fun a ha => lt_irrefl _ (hpath ha)

/-! ## Reaching from a list of nodes -/

/-- Some node of `S` leads to `x`, in any number of steps. -/
def Reaches (r : α → α → Prop) (S : List α) (x : α) : Prop := ∃ s ∈ S, ReflTransGen r s x

theorem Reaches.of_mem (h : x ∈ S) : Reaches r S x := ⟨x, h, .refl⟩

theorem Reaches.trans (h : Reaches r S a) (hab : ReflTransGen r a b) : Reaches r S b := by
  obtain ⟨s, hs, hsa⟩ := h
  exact ⟨s, hs, hsa.trans hab⟩

theorem Reaches.mono (h : Reaches r' S x) (hsub : ∀ a b, r' a b → r a b) : Reaches r S x := by
  obtain ⟨s, hs, hsx⟩ := h
  exact ⟨s, hs, ReflTransGen.mono hsub _ _ hsx⟩

/-- The nodes reached from some of the lists but not from all of them. -/
def ReachDifference (r : α → α → Prop) (sets : List (List α)) (x : α) : Prop :=
  (∃ S ∈ sets, Reaches r S x) ∧ ∃ S ∈ sets, ¬ Reaches r S x

/-! ## Adding an edge -/

/-- The graph with one more edge, from `u` to `v`. -/
def AddEdge (r : α → α → Prop) (u v a b : α) : Prop := r a b ∨ a = u ∧ b = v

theorem reflTransGen_addEdge : ReflTransGen (AddEdge r u v) a x ↔
      ReflTransGen r a x ∨ ReflTransGen r a u ∧ ReflTransGen r v x := by
  constructor
  · intro h
    induction h with
    | refl => exact .inl .refl
    | tail _ hbc ih =>
      rcases hbc with hbc | ⟨rfl, rfl⟩
      · rcases ih with ih | ⟨hau, hvb⟩
        · exact .inl (ih.tail hbc)
        · exact .inr ⟨hau, hvb.tail hbc⟩
      · rcases ih with ih | ⟨hau, _⟩
        · exact .inr ⟨ih, .refl⟩
        · exact .inr ⟨hau, .refl⟩
  · have old : ∀ {c d}, ReflTransGen r c d → ReflTransGen (AddEdge r u v) c d :=
      ReflTransGen.mono (fun _ _ => .inl) _ _
    rintro (h | ⟨hau, hvx⟩)
    · exact old h
    · exact ((old hau).tail (.inr ⟨rfl, rfl⟩)).trans (old hvx)

theorem reaches_addEdge :
    Reaches (AddEdge r u v) S x ↔ Reaches r S x ∨ Reaches r S u ∧ ReflTransGen r v x := by
  constructor
  · rintro ⟨s, hs, h⟩
    rcases reflTransGen_addEdge.mp h with h | ⟨hu, hv⟩
    · exact .inl ⟨s, hs, h⟩
    · exact .inr ⟨⟨s, hs, hu⟩, hv⟩
  · rintro (⟨s, hs, h⟩ | ⟨⟨s, hs, hu⟩, hv⟩)
    · exact ⟨s, hs, reflTransGen_addEdge.mpr (.inl h)⟩
    · exact ⟨s, hs, reflTransGen_addEdge.mpr (.inr ⟨hu, hv⟩)⟩

/-! ## Height -/

open Classical in
/-- The number of nodes of `univ` strictly below `a`. -/
noncomputable def height (r : α → α → Prop) (univ : Finset α) (a : α) : ℕ :=
  (univ.filter fun x => TransGen r a x).card

theorem height_le_card (r : α → α → Prop) (univ : Finset α) (a : α) : height r univ a ≤ univ.card := by
  classical
  exact card_filter_le _ _

variable {univ : Finset α}

theorem height_lt_of_transGen (h : Acyclic r) (hb : b ∈ univ)
    (hab : TransGen r a b) : height r univ b < height r univ a := by
  classical
  apply card_lt_card
  refine ⟨fun x hx => ?_, fun hsub => ?_⟩
  · rw [mem_filter] at hx ⊢
    exact ⟨hx.1, hab.trans hx.2⟩
  · have hb' : b ∈ univ.filter fun x => TransGen r b x := hsub (mem_filter.mpr ⟨hb, hab⟩)
    exact h b (mem_filter.mp hb').2

theorem height_lt_of_edge (h : Acyclic r) (hb : b ∈ univ) (hab : r a b) :
    height r univ b < height r univ a := height_lt_of_transGen h hb (.single hab)

/-- Among the nodes of a list that satisfy `p`, some node is below no other. -/
theorem Acyclic.exists_top (h : Acyclic r) {p : α → Prop} (ha : a ∈ S) (hp : p a) :
    ∃ b ∈ S, p b ∧ ∀ c ∈ S, p c → c ≠ b → ¬ ReflTransGen r c b := by
  classical
  obtain ⟨b, hb, hmax⟩ := (S.toFinset.filter p).exists_max_image (height r S.toFinset)
    ⟨a, mem_filter.mpr ⟨List.mem_toFinset.mpr ha, hp⟩⟩
  rw [mem_filter, List.mem_toFinset] at hb
  refine ⟨b, hb.1, hb.2, fun c hc hpc hne hcb => ?_⟩
  have hlt := height_lt_of_transGen h (List.mem_toFinset.mpr hb.1)
    ((reflTransGen_iff_eq_or_transGen.mp hcb).resolve_left fun heq => hne heq.symm)
  exact absurd (hmax c (mem_filter.mpr ⟨List.mem_toFinset.mpr hc, hpc⟩)) (Nat.not_le.mpr hlt)

theorem height_lt_card (h : Acyclic r) (ha : a ∈ univ) : height r univ a < univ.card := by
  classical
  apply card_lt_card
  refine ⟨filter_subset _ _, fun hsub => ?_⟩
  exact h a (mem_filter.mp (hsub ha)).2

end Synapse.Util
