import Synapse.State.V2
import Mathlib.Algebra.Order.BigOperators.Group.Finset

/-!
# The graph of the power events

`_add_event_and_auth_chain_to_graph` is a depth-first search along the auth events that are in the full
conflicted set.  It may put an event on its stack more than once, but when it meets the event again the
auth events of it are in the graph: they were put above every other occurrence of the event.  So each
event adds its auth events to the stack once, and the search ends.

The graph is then the part of the full conflicted set that the power events reach, whatever the order
in which they are added.
-/

namespace Synapse.State

open Synapse.Util Relation List

variable {ε ρ : Type} {view : View ε ρ} {roomId : ρ}

/-- The auth references of the events that are known. -/
def AuthEdge (view : View ε ρ) (e a : ε) : Prop :=
  ∃ event, view e = some event ∧ a ∈ event.authEventIds

/-- The auth references into a set of events. -/
def ConflictedEdge (view : View ε ρ) (full : List ε) (e a : ε) : Prop :=
  AuthEdge view e a ∧ a ∈ full

/-- All these events are known and in the room. -/
def InRoom (view : View ε ρ) (roomId : ρ) (full : List ε) : Prop :=
  ∀ e ∈ full, ∃ event, view e = some event ∧ event.roomId = roomId

def authCount (view : View ε ρ) (e : ε) : ℕ :=
  ((view e).map fun event => event.authEventIds.length).getD 0

variable {event : Event ε ρ} {e : ε}

theorem viewAccess_index (h : view e = some event) : (viewAccess view).index e = .ok event := by
  unfold viewAccess
  dsimp only
  rw [h]

theorem getEventOrNone_view [DecidableEq ρ] (e : ε) : getEventOrNone (viewAccess view) roomId e =
      match view e with
      | none => .ok none
      | some event => if event.roomId = roomId then .ok (some event) else .error .raised := by
  show (Except.ok (view e) >>= _) = _
  cases view e with
  | none => rfl
  | some event => rfl

theorem getEvent_view [DecidableEq ρ] (h : view e = some event)
    (hroom : event.roomId = roomId) : getEvent (viewAccess view) roomId e = .ok event := by
  unfold getEvent
  rw [getEventOrNone_view, h]
  show ((if event.roomId = roomId then _ else _) >>= _) = _
  rw [if_pos hroom]
  rfl

section
variable [LinearOrder ε] {full : List ε} {graph : Dict ε (List ε)} {state : List ε} {reach : ε → Prop}

/-! ## One event -/

theorem foldl_addEdge_spec (full : List ε) (eid : ε) (aids : List ε)
    (acc : Dict ε (List ε) × List ε) (heid : eid ∈ acc.1) :
    (∀ n, n ∈ (aids.foldl (addEdge full eid) acc).1 ↔ n ∈ acc.1) ∧
    (∀ n, n ≠ eid → (aids.foldl (addEdge full eid) acc).1.getD n [] = acc.1.getD n []) ∧
    (∀ m, m ∈ (aids.foldl (addEdge full eid) acc).1.getD eid [] ↔
      m ∈ acc.1.getD eid [] ∨ m ∈ aids ∧ m ∈ full) ∧
    (aids.foldl (addEdge full eid) acc).2 =
      (aids.filter fun a => a ∈ full ∧ a ∉ acc.1).reverse ++ acc.2 := by
  refine foldl_inv (I := fun done (s : Dict ε (List ε) × List ε) => (∀ n, n ∈ s.1 ↔ n ∈ acc.1) ∧
      (∀ n, n ≠ eid → s.1.getD n [] = acc.1.getD n []) ∧
      (∀ m, m ∈ s.1.getD eid [] ↔ m ∈ acc.1.getD eid [] ∨ m ∈ done ∧ m ∈ full) ∧
      s.2 = (done.filter fun a => a ∈ full ∧ a ∉ acc.1).reverse ++ acc.2) aids
    (fun done aid rest s _ ⟨h₁, h₂, h₃, h₄⟩ => ?_)
    ⟨fun _ => .rfl, fun _ _ => rfl, fun m => by simp, rfl⟩
  unfold addEdge
  split
  next haid =>
    refine ⟨fun n => ?_, fun n hn => ?_, fun m => ?_, ?_⟩
    · rw [← h₁, AList.mem_insert, or_iff_right_of_imp]
      rintro rfl
      exact (h₁ n).mpr heid
    · rw [Dict.getD_insert, if_neg hn, h₂ n hn]
    · rw [Dict.getD_insert, if_pos rfl, mem_insert_iff, or_comm, h₃, mem_append, mem_singleton,
        or_and_right, ← or_assoc]
      refine or_congr_right (and_iff_left_of_imp ?_).symm
      rintro rfl
      exact haid
    · rw [filter_append, reverse_append, h₄]
      by_cases hmem : aid ∈ acc.1 <;> simp [haid, hmem, h₁]
  next haid =>
    refine ⟨h₁, h₂, fun m => ?_, ?_⟩
    · rw [h₃, mem_append, mem_singleton]
      refine or_congr_right (and_congr_left fun hm => (or_iff_left ?_).symm)
      rintro rfl
      exact haid hm
    · rw [h₄, filter_append]
      simp [haid]

/-- What holds between two turns of the search. -/
structure GraphInv (view : View ε ρ) (full : List ε) (reach : ε → Prop)
    (graph : Dict ε (List ε)) (state : List ε) : Prop where
  edges : ∀ n ∈ graph, ∀ m, m ∈ graph.getD n [] ↔ ConflictedEdge view full n m
  reached : ∀ n, n ∈ graph ∨ n ∈ state → n ∈ full ∧ reach n
  pending : ∀ n ∈ graph, ∀ m, ConflictedEdge view full n m → m ∈ graph ∨ m ∈ state
  /-- The auth events of an event that is met again are still above it, or in the graph. -/
  above : ∀ pre n post, state = pre ++ n :: post → n ∈ graph → ∀ m, ConflictedEdge view full n m →
    m ∈ graph ∨ m ∈ pre

/-- Each turn lowers this number. -/
def potential (view : View ε ρ) (full : List ε) (graph : Dict ε (List ε))
    (state : List ε) : ℕ := state.length + ∑ n ∈ full.toFinset.filter (· ∉ graph), authCount view n

/-- The stack and the graph after one turn. -/
def turn (full : List ε) (event : Event ε ρ) (graph : Dict ε (List ε)) (eid : ε) (state : List ε) :
    Dict ε (List ε) × List ε :=
  event.authEventIds.foldl (addEdge full eid) (graph.insert eid (graph.getD eid []), state)

variable {event : Event ε ρ}

section
variable {eid : ε} (hevent : view eid = some event)
include hevent

variable (h : GraphInv view full reach graph (eid :: state))
include h in
theorem turn_spec : (∀ n, n ∈ (turn full event graph eid state).1 ↔ n = eid ∨ n ∈ graph) ∧
    (∀ n, n ≠ eid → (turn full event graph eid state).1.getD n [] = graph.getD n []) ∧
    (∀ m, m ∈ (turn full event graph eid state).1.getD eid [] ↔ ConflictedEdge view full eid m) ∧
    (turn full event graph eid state).2 =
      (event.authEventIds.filter fun a => a ∈ full ∧ ¬ (a = eid ∨ a ∈ graph)).reverse ++ state := by
  have hkeys : ∀ n, n ∈ graph.insert eid (graph.getD eid []) ↔ n = eid ∨ n ∈ graph :=
    fun n => AList.mem_insert graph
  have hedge : ∀ m, ConflictedEdge view full eid m ↔ m ∈ event.authEventIds ∧ m ∈ full := by
    intro m
    unfold ConflictedEdge AuthEdge
    rw [hevent]
    simp
  obtain ⟨h₁, h₂, h₃, h₄⟩ := foldl_addEdge_spec full eid event.authEventIds
    (graph.insert eid (graph.getD eid []), state) ((hkeys eid).mpr (.inl rfl))
  refine ⟨fun n => (h₁ n).trans (hkeys n), fun n hn => ?_, fun m => ?_, ?_⟩
  · exact (h₂ n hn).trans (Dict.getD_insert.trans (if_neg hn))
  · refine (h₃ m).trans ?_
    rw [hedge, Dict.getD_insert, if_pos rfl]
    refine or_iff_right_of_imp fun hm => ?_
    by_cases heid : eid ∈ graph
    · exact (hedge m).mp ((h.edges eid heid m).mp hm)
    · rw [Dict.getD, AList.lookup_eq_none.mpr heid] at hm
      exact absurd hm not_mem_nil
  · refine h₄.trans ?_
    simp only [hkeys]

theorem turn_inv (hreach : ∀ n m, ConflictedEdge view full n m → reach n → reach m)
    (h : GraphInv view full reach graph (eid :: state)) :
    GraphInv view full reach (turn full event graph eid state).1 (turn full event graph eid state).2 := by
  obtain ⟨hkeys, hother, hedges, hstate⟩ := turn_spec hevent h
  have hself := h.reached eid (.inr mem_cons_self)
  have hpushed : ∀ n, n ∈ (turn full event graph eid state).2 ↔
      (ConflictedEdge view full eid n ∧ ¬ (n = eid ∨ n ∈ graph)) ∨ n ∈ state := by
    intro n
    rw [hstate, mem_append, mem_reverse, mem_filter]
    unfold ConflictedEdge AuthEdge
    rw [hevent]
    simp [and_assoc]
  refine ⟨fun n hn m => ?_, fun n hn => ?_, fun n hn m hm => ?_, fun pre n post heq hn m hm => ?_⟩
  · by_cases hne : n = eid
    · rw [hne]
      exact hedges m
    · rw [hother n hne]
      exact h.edges n (((hkeys n).mp hn).resolve_left hne) m
  · rw [hkeys, hpushed] at hn
    rcases hn with (rfl | hn) | ⟨hedge, _⟩ | hn
    · exact hself
    · exact h.reached n (.inl hn)
    · exact ⟨hedge.2, hreach eid n hedge hself.2⟩
    · exact h.reached n (.inr (mem_cons_of_mem _ hn))
  · rw [hkeys, hpushed]
    by_cases hin : m = eid ∨ m ∈ graph
    · exact .inl hin
    · rcases (hkeys n).mp hn with rfl | hn
      · exact .inr (.inl ⟨hm, hin⟩)
      · rcases h.pending n hn m hm with hm' | hm'
        · exact absurd (.inr hm') hin
        · rcases mem_cons.mp hm' with rfl | hm'
          · exact absurd (.inl rfl) hin
          · exact .inr (.inr hm')
  · rw [hkeys]
    by_cases hin : m = eid ∨ m ∈ graph
    · exact .inl hin
    rw [hstate] at heq
    -- What was pushed is not in the graph, so `n` is further down.
    have hsplit : ∃ pre', pre = (event.authEventIds.filter
        fun a => a ∈ full ∧ ¬ (a = eid ∨ a ∈ graph)).reverse ++ pre' ∧ state = pre' ++ n :: post := by
      rcases append_eq_append_iff.mp heq with ⟨pre', hpre, hpost⟩ | ⟨pre', hpre, hpost⟩
      · exact ⟨pre', hpre, hpost⟩
      · cases pre' with
        | nil =>
          rw [append_nil] at hpre
          exact ⟨[], by rw [hpre, append_nil], hpost.symm⟩
        | cons x pre' =>
          obtain ⟨rfl, -⟩ := cons.inj hpost
          have hmem : n ∈ (event.authEventIds.filter
              fun a => a ∈ full ∧ ¬ (a = eid ∨ a ∈ graph)).reverse := by
            rw [hpre]
            exact mem_append_cons_self
          rw [mem_reverse, mem_filter, decide_eq_true_iff] at hmem
          exact absurd ((hkeys n).mp hn) hmem.2.2
    obtain ⟨pre', rfl, hpost⟩ := hsplit
    rcases (hkeys n).mp hn with rfl | hn
    · refine .inr (mem_append_left _ ?_)
      obtain ⟨⟨event', hevent', hmem⟩, hfull⟩ := hm
      rw [hevent, Option.some.injEq] at hevent'
      rw [mem_reverse, mem_filter, decide_eq_true_iff, hevent']
      exact ⟨hmem, hfull, hin⟩
    · rcases h.above (eid :: pre') n post (by rw [hpost]; rfl) hn m hm with hm' | hm'
      · exact absurd (.inr hm') hin
      · rcases mem_cons.mp hm' with rfl | hm'
        · exact absurd (.inl rfl) hin
        · exact .inr (mem_append_right _ hm')

include h in
theorem turn_potential :
    potential view full (turn full event graph eid state).1 (turn full event graph eid state).2 <
      potential view full graph (eid :: state) := by
  obtain ⟨hkeys, -, -, hstate⟩ := turn_spec hevent h
  have hfull := (h.reached eid (.inr mem_cons_self)).1
  unfold potential
  rw [hstate, length_append, length_reverse, length_cons]
  by_cases heid : eid ∈ graph
  · -- Met again: all its auth events are in the graph.
    have hnone : (event.authEventIds.filter fun a => a ∈ full ∧ ¬ (a = eid ∨ a ∈ graph)) = [] := by
      refine filter_eq_nil_iff.mpr fun a ha => ?_
      rw [decide_eq_true_iff]
      rintro ⟨hafull, hnot⟩
      rcases h.above [] eid state rfl heid a ⟨⟨event, hevent, ha⟩, hafull⟩ with hm | hm
      · exact hnot (.inr hm)
      · exact nomatch hm
    have hsame : full.toFinset.filter (· ∉ (turn full event graph eid state).1) =
        full.toFinset.filter (· ∉ graph) := by
      refine Finset.filter_congr fun n _ => not_congr ((hkeys n).trans (or_iff_right_of_imp ?_))
      rintro rfl
      exact heid
    rw [hnone, hsame, length_nil]
    omega
  · have hsplit : full.toFinset.filter (· ∉ graph) =
        insert eid (full.toFinset.filter (· ∉ (turn full event graph eid state).1)) := by
      refine Finset.ext fun n => ?_
      rw [Finset.mem_insert, Finset.mem_filter, Finset.mem_filter, hkeys]
      by_cases hne : n = eid
      · subst hne
        simp [heid, hfull]
      · simp [hne]
    have hnot : eid ∉ full.toFinset.filter (· ∉ (turn full event graph eid state).1) := by
      rw [Finset.mem_filter, hkeys]
      exact fun hmem => hmem.2 (.inl rfl)
    have hcount : authCount view eid = event.authEventIds.length := by
      rw [authCount, hevent]
      rfl
    rw [hsplit, Finset.sum_insert hnot, hcount]
    have hle := length_filter_le (fun a => decide (a ∈ full ∧ ¬ (a = eid ∨ a ∈ graph))) event.authEventIds
    omega

end

/-! ## The search -/

variable [DecidableEq ρ]

theorem addEventAndAuthChainToGraph_spec (hroom : InRoom view roomId full)
    (hreach : ∀ n m, ConflictedEdge view full n m → reach n → reach m) :
    ∀ (rounds : ℕ) (graph : Dict ε (List ε)) (state : List ε), GraphInv view full reach graph state →
      potential view full graph state ≤ rounds →
      ∃ graph', addEventAndAuthChainToGraph (viewAccess view) roomId full rounds graph state =
          .ok graph' ∧ GraphInv view full reach graph' [] ∧
        ∀ n, n ∈ graph ∨ n ∈ state → n ∈ graph'
  | rounds, graph, [], h, _ => by
    refine ⟨graph, ?_, h, fun n hn => hn.resolve_right not_mem_nil⟩
    unfold addEventAndAuthChainToGraph
    rfl
  | 0, graph, eid :: state, _, hle => by
    unfold potential at hle
    rw [length_cons] at hle
    omega
  | rounds + 1, graph, eid :: state, h, hle => by
    obtain ⟨event, hevent, hin⟩ := hroom eid (h.reached eid (.inr mem_cons_self)).1
    obtain ⟨hkeys, -, -, hstate⟩ := turn_spec hevent h
    have hlt := turn_potential hevent h
    obtain ⟨graph', hgraph', hinv', hmem'⟩ := addEventAndAuthChainToGraph_spec hroom hreach rounds _ _
      (turn_inv hevent hreach h) (by omega)
    refine ⟨graph', ?_, hinv', fun n hn => hmem' n ?_⟩
    · unfold addEventAndAuthChainToGraph
      rw [getEvent_view hevent hin]
      exact hgraph'
    · rw [hkeys, hstate, mem_append]
      rcases hn with hn | hn
      · exact .inl (.inr hn)
      · rcases mem_cons.mp hn with rfl | hn
        · exact .inl (.inl rfl)
        · exact .inr (.inr hn)

/-- The graph of the power events, as a set of nodes and edges. -/
structure GraphOf (view : View ε ρ) (full powerEvents : List ε)
    (graph : Dict ε (List ε)) : Prop where
  mem : ∀ n, n ∈ graph ↔ ∃ p ∈ powerEvents, ReflTransGen (ConflictedEdge view full) p n
  edges : ∀ n ∈ graph, ∀ m, m ∈ graph.getD n [] ↔ ConflictedEdge view full n m
  full : ∀ n ∈ graph, n ∈ full

variable {powerEvents : List ε}

omit [DecidableEq ρ] in
theorem GraphOf.closed (h : GraphOf view full powerEvents graph) (n m : ε)
    (hm : m ∈ graph.getD n []) : m ∈ graph := by
  have hn : n ∈ graph := by
    by_contra hn
    rw [Dict.getD, AList.lookup_eq_none.mpr hn] at hm
    exact absurd hm not_mem_nil
  obtain ⟨p, hp, hpn⟩ := (h.mem n).mp hn
  exact (h.mem m).mpr ⟨p, hp, hpn.tail ((h.edges n hn m).mp hm)⟩

/-- Adding the power events one after the other. -/
theorem foldlM_addEventAndAuthChainToGraph (hroom : InRoom view roomId full)
    (hpower : ∀ p ∈ powerEvents, p ∈ full) {rounds : ℕ}
    (hrounds : 1 + ∑ n ∈ full.toFinset, authCount view n ≤ rounds) :
    ∃ graph, powerEvents.foldlM (fun graph eventId =>
        addEventAndAuthChainToGraph (viewAccess view) roomId full rounds graph [eventId]) ∅ =
        .ok graph ∧ GraphOf view full powerEvents graph := by
  let reach : ε → Prop := fun n => ∃ p ∈ powerEvents, ReflTransGen (ConflictedEdge view full) p n
  have hreach : ∀ n m, ConflictedEdge view full n m → reach n → reach m := by
    rintro n m hnm ⟨p, hp, hpn⟩
    exact ⟨p, hp, hpn.tail hnm⟩
  obtain ⟨graph, hgraph, hinv, hdone⟩ := foldlM_ok_inv
    (I := fun done graph => GraphInv view full reach graph [] ∧ ∀ p ∈ done, p ∈ graph) powerEvents
    (by
      rintro done p rest graph heq ⟨hinv, hdone⟩
      have hp : p ∈ powerEvents := by
        rw [heq]
        exact mem_append_cons_self
      have hclosed : ∀ n ∈ graph, ∀ m, ConflictedEdge view full n m → m ∈ graph :=
        fun n hn m hm => (hinv.pending n hn m hm).resolve_right not_mem_nil
      have hstart : GraphInv view full reach graph [p] := by
        refine ⟨hinv.edges, fun n hn => ?_, fun n hn m hm => .inl (hclosed n hn m hm),
          fun pre n post _ hn m hm => .inl (hclosed n hn m hm)⟩
        rcases hn with hn | hn
        · exact hinv.reached n (.inl hn)
        · obtain rfl := mem_singleton.mp hn
          exact ⟨hpower n hp, n, hp, .refl⟩
      have hpot : potential view full graph [p] ≤ rounds := by
        refine le_trans (Nat.add_le_add_left (Finset.sum_le_sum_of_subset ?_) 1) hrounds
        exact Finset.filter_subset _ _
      obtain ⟨graph', hgraph', hinv', hmem'⟩ :=
        addEventAndAuthChainToGraph_spec hroom hreach rounds graph [p] hstart hpot
      refine ⟨graph', hgraph', hinv', fun q hq => hmem' q ?_⟩
      exact (mem_append.mp hq).imp_left (hdone q))
    ⟨⟨fun n hn => absurd hn (AList.notMem_empty _), by simp, fun n hn => absurd hn (AList.notMem_empty _),
      fun _ _ _ _ hn => absurd hn (AList.notMem_empty _)⟩, nofun⟩
  refine ⟨graph, hgraph, fun n => ⟨fun hn => (hinv.reached n (.inl hn)).2, ?_⟩, hinv.edges,
    fun n hn => (hinv.reached n (.inl hn)).1⟩
  rintro ⟨p, hp, hpn⟩
  induction hpn with
  | refl => exact hdone p hp
  | tail _ hedge ih => exact (hinv.pending _ ih _ hedge).resolve_right not_mem_nil

end
end Synapse.State
