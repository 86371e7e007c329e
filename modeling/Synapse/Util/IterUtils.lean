import Synapse.Util.Dict
import Synapse.Util.Kahn
import Synapse.Util.Loops
import Synapse.Util.Sorting

/-!
# `sorted_topologically`

The generator of `synapse.util.iterutils` counts for every node how many of its edges lead to other
given nodes, keeps the nodes whose count has reached zero in a heap, and lowers the counts of a
node's dependants when it yields the node.  The heap is a sorted list here: `heappop` takes its
head, and which of two equal entries is taken makes no difference.

The counts are always the number of dependencies that are left, so the heap always holds exactly the
nodes that are ready, and the function yields the order of `Synapse.Util.Kahn` by node.
-/

namespace Synapse.Util

open List Finset AList
open Function (update_of_ne update_self)

variable {ε : Type} [LinearOrder ε]

/-- `degree_map` and `reverse_graph`. -/
abbrev Degrees (ε : Type) := Dict ε ℕ × Dict ε (List ε)

/-- The loop body for one edge of a node. -/
def countEdge (node : ε) (acc : Degrees ε) (edge : ε) : Degrees ε :=
  (if edge ∈ acc.1 then acc.1.insert node (acc.1.getD node 0 + 1) else acc.1,
    acc.2.insert edge ((acc.2.getD edge []).insert node))

/-- The loop body for one entry of the graph. -/
def countEdges (acc : Degrees ε) (entry : Sigma fun _ : ε => List ε) : Degrees ε :=
  if entry.1 ∈ acc.1 then
    let acc := entry.2.dedup.foldl (countEdge entry.1) acc
    (acc.1, acc.2.insert entry.1 (acc.2.getD entry.1 []))
  else acc

/-- The loop body that tells a dependant that its dependency has been yielded. -/
def release (acc : Dict ε ℕ × List ε) (edge : ε) : Dict ε ℕ × List ε :=
  if edge ∈ acc.1 then
    let degree := acc.1.getD edge 0 - 1
    (acc.1.insert edge degree,
      if degree = 0 then acc.2.orderedInsert (· ≤ ·) edge else acc.2)
  else acc

/-- The `while zero_degree` loop. -/
def yieldNodes (reverseGraph : Dict ε (List ε)) : ℕ → Dict ε ℕ → List ε → List ε
  | 0, _, _ => []
  | _ + 1, _, [] => []
  | fuel + 1, degreeMap, node :: heap =>
    let (degreeMap, heap) := (reverseGraph.getD node []).foldl release (degreeMap, heap)
    node :: yieldNodes reverseGraph fuel degreeMap heap

/-- `sorted_topologically`.  Every turn of the loop yields another node, so there are no more turns
than nodes. -/
def sortedTopologically (nodes : List ε) (graph : Dict ε (List ε)) : List ε :=
  let (degreeMap, reverseGraph) := graph.entries.foldl countEdges (Dict.ofKeys nodes fun _ => 0, ∅)
  let zeroDegree := (degreeMap.entries.filter fun entry => entry.2 = 0).map (·.1)
  yieldNodes reverseGraph nodes.length degreeMap (zeroDegree.insertionSort (· ≤ ·))

/-! ## Counting -/

/-- The counts and the reversed edges of a graph that gives every node `n` the edges `g n`. -/
structure Counts (nodes : Finset ε) (g : ε → Finset ε) (acc : Degrees ε) : Prop where
  keys : ∀ {n}, n ∈ acc.1 ↔ n ∈ nodes
  degree : ∀ {n}, n ∈ nodes → acc.1.getD n 0 = (g n ∩ nodes).card
  reverse : ∀ {m n}, n ∈ acc.2.getD m [] ↔ n ∈ nodes ∧ m ∈ g n
  nodup : ∀ {m}, (acc.2.getD m []).Nodup

section
variable {nodes : Finset ε} {g : ε → Finset ε} {acc : Degrees ε} {node edge : ε}

/-- One more edge of a node. -/
theorem Counts.countEdge (h : Counts nodes g acc) (hnode : node ∈ nodes) (hedge : edge ∉ g node) :
    Counts nodes (Function.update g node (insert edge (g node))) (countEdge node acc edge) where
  keys := by
    intro n
    unfold Util.countEdge
    split
    · rw [AList.mem_insert, h.keys]
      exact or_iff_right_of_imp fun hn => hn ▸ hnode
    · exact h.keys
  degree := by
    intro n hn
    unfold Util.countEdge
    by_cases hne : n = node
    · subst hne
      rw [update_self]
      split
      next hmem =>
        rw [Dict.getD_of_lookup (lookup_insert acc.1), h.degree hn,
          insert_inter_of_mem (h.keys.mp hmem), card_insert_of_notMem]
        exact fun hmem' => hedge (mem_inter.mp hmem').1
      next hmem =>
        rw [h.degree hn, insert_inter_of_notMem fun hin => hmem (h.keys.mpr hin)]
    · rw [update_of_ne hne, ← h.degree hn]
      split
      · rw [Dict.getD, lookup_insert_ne hne, Dict.getD]
      · rfl
  reverse := by
    intro m n
    rw [Util.countEdge, Dict.mem_getD_insert_insert, h.reverse]
    by_cases hne : n = node
    · subst hne
      rw [update_self, Finset.mem_insert]
      simp only [hnode, true_and, and_true]
      exact or_comm
    · rw [update_of_ne hne, or_iff_left fun hnew => hne hnew.2]
  nodup := by
    intro m
    rw [Util.countEdge, Dict.getD_insert]
    split
    · exact h.nodup.insert
    · exact h.nodup

theorem Counts.foldl_countEdge (edges : List ε) (hedges : edges.Nodup)
    (hnew : ∀ e ∈ edges, e ∉ g node) (hnode : node ∈ nodes) (h : Counts nodes g acc) :
    Counts nodes (Function.update g node (g node ∪ edges.toFinset))
      (edges.foldl (Util.countEdge node) acc) := by
  induction edges generalizing g acc with
  | nil =>
    rw [toFinset_nil, Finset.union_empty, Function.update_eq_self]
    exact h
  | cons e edges ih =>
    rw [nodup_cons] at hedges
    have h₁ := h.countEdge hnode (hnew e mem_cons_self)
    have h₂ := ih hedges.2 (fun x hx => by
      rw [update_self, Finset.mem_insert, not_or]
      exact ⟨fun hxe => hedges.1 (hxe ▸ hx), hnew x (mem_cons_of_mem _ hx)⟩) h₁
    rw [update_self, Function.update_idem] at h₂
    have hunion : g node ∪ (e :: edges).toFinset = insert e (g node) ∪ edges.toFinset := by
      rw [toFinset_cons, union_insert, Finset.insert_union]
    rw [hunion]
    exact h₂

/-- One more entry of the graph; entries of other nodes are skipped. -/
theorem Counts.countEdges (edges : List ε) (h : Counts nodes g acc) (hnode : g node = ∅) :
    Counts nodes (if node ∈ nodes then Function.update g node edges.toFinset else g)
      (countEdges acc ⟨node, edges⟩) := by
  unfold Util.countEdges
  by_cases hmem : node ∈ nodes
  · rw [if_pos hmem, if_pos (h.keys.mpr hmem)]
    have h₁ := h.foldl_countEdge edges.dedup (nodup_dedup edges)
      (fun e _ => by rw [hnode]; exact Finset.notMem_empty e) hmem
    have hdedup : edges.dedup.toFinset = edges.toFinset := by
      ext x
      rw [mem_toFinset, mem_toFinset, mem_dedup]
    rw [hnode, Finset.empty_union, hdedup] at h₁
    -- `reverse_graph.setdefault(node, set())` changes nothing that is looked up
    refine ⟨h₁.keys, h₁.degree, ?_, ?_⟩
    · intro m n
      rw [Dict.getD_insert_getD, h₁.reverse]
    · intro m
      rw [Dict.getD_insert_getD]
      exact h₁.nodup
  · rw [if_neg hmem, if_neg fun hk => hmem (h.keys.mp hk)]
    exact h

theorem Counts.foldl_countEdges (entries : List (Sigma fun _ : ε => List ε))
    (hkeys : entries.NodupKeys) (hnew : ∀ entry ∈ entries, g entry.1 = ∅) (h : Counts nodes g acc) :
    ∃ g', Counts nodes g' (entries.foldl Util.countEdges acc) ∧
      ∀ n ∈ nodes, g' n = match entries.dlookup n with
        | some edges => edges.toFinset
        | none => g n := by
  induction entries generalizing g acc with
  | nil => exact ⟨g, h, fun n _ => rfl⟩
  | cons entry entries ih =>
    obtain ⟨node, edges⟩ := entry
    rw [nodupKeys_cons] at hkeys
    have hother : ∀ entry ∈ entries, entry.1 ≠ node := by
      intro entry hentry heq
      have hmem := mem_keys_of_mem hentry
      rw [heq] at hmem
      exact hkeys.1 hmem
    have h₁ := h.countEdges edges (hnew _ mem_cons_self)
    obtain ⟨g', h', hg'⟩ := ih hkeys.2 (fun entry hentry => by
      split
      · rw [update_of_ne (hother entry hentry)]
        exact hnew entry (mem_cons_of_mem _ hentry)
      · exact hnew entry (mem_cons_of_mem _ hentry)) h₁
    refine ⟨g', h', fun n hn => ?_⟩
    rw [hg' n hn]
    by_cases hne : n = node
    · subst hne
      rw [dlookup_cons_eq, dlookup_eq_none.mpr hkeys.1, if_pos hn, update_self]
    · rw [dlookup_cons_ne _ _ hne]
      split
      · rfl
      · split
        · rw [update_of_ne hne]
        · rfl

end

/-! ## Yielding -/

section
variable {nodes left : Finset ε} {g : ε → Finset ε} {degreeMap : Dict ε ℕ} {heap : List ε}

section
variable {ν β : Type} [LinearOrder β] {key : ε → β}

/-- Updates the value of a node, and pushes the node if it has become ready. -/
def updatePush (key : ε → β) (upd : ν → ν) (dflt : ν) (ready : ν → Prop) [DecidablePred ready]
    (acc : Dict ε ν × List ε) (node : ε) : Dict ε ν × List ε :=
  let value := upd (acc.1.getD node dflt)
  (acc.1.insert node value,
    if ready value then acc.2.orderedInsert (fun a b => key a ≤ key b) node else acc.2)

instance total_key (key : ε → β) : Std.Total fun a b => key a ≤ key b :=
  ⟨fun a b => le_total (key a) (key b)⟩

instance isTrans_key (key : ε → β) : IsTrans ε fun a b => key a ≤ key b := ⟨fun _ _ _ => le_trans⟩

/-- Updating some nodes pushes those that become ready. -/
theorem foldl_updatePush_spec (hkey : Function.Injective key) (upd : ν → ν) (dflt : ν)
    (ready : ν → Prop) [DecidablePred ready] (nodes : List ε) (values : Dict ε ν) (heap : List ε)
    (hnodup : nodes.Nodup) (hnew : ∀ n ∈ nodes, n ∉ heap)
    (hheap : Increasing key heap) :
    (∀ n, n ∈ (nodes.foldl (updatePush key upd dflt ready) (values, heap)).1 ↔ n ∈ values ∨ n ∈ nodes) ∧
    (∀ n, (nodes.foldl (updatePush key upd dflt ready) (values, heap)).1.getD n dflt =
      if n ∈ nodes then upd (values.getD n dflt) else values.getD n dflt) ∧
    Increasing key (nodes.foldl (updatePush key upd dflt ready) (values, heap)).2 ∧
    ∀ n, n ∈ (nodes.foldl (updatePush key upd dflt ready) (values, heap)).2 ↔
      n ∈ heap ∨ n ∈ nodes ∧ ready (upd (values.getD n dflt)) := by
  refine foldl_inv (I := fun done (acc : Dict ε ν × List ε) =>
      (∀ n, n ∈ acc.1 ↔ n ∈ values ∨ n ∈ done) ∧
      (∀ n, acc.1.getD n dflt = if n ∈ done then upd (values.getD n dflt) else values.getD n dflt) ∧
      Increasing key acc.2 ∧
      ∀ n, n ∈ acc.2 ↔ n ∈ heap ∨ n ∈ done ∧ ready (upd (values.getD n dflt))) nodes
    (fun done p rest acc hnodes ⟨hkeys, hget, hsorted, hmem⟩ => ?_) ⟨by simp, by simp, hheap, by simp⟩
  -- the node comes once, so it still has its first value and has not been pushed
  have hp : p ∉ done := fun h =>
    (nodup_append.mp (hnodes ▸ hnodup)).2.2 p h p mem_cons_self rfl
  have hvalue : acc.1.getD p dflt = values.getD p dflt := by rw [hget, if_neg hp]
  have hpush : p ∉ acc.2 := by
    rw [hmem]
    rintro (h | h)
    · exact hnew p (by simp [hnodes]) h
    · exact hp h.1
  unfold updatePush
  dsimp only
  refine ⟨fun n => ?_, fun n => ?_, ?_, fun n => ?_⟩
  · rw [AList.mem_insert, or_comm, hkeys, mem_append, List.mem_singleton, or_assoc]
  · rw [Dict.getD_insert]
    by_cases hn : n = p
    · subst hn
      rw [if_pos rfl, hvalue, if_pos (by simp)]
    · rw [if_neg hn, hget]
      simp [hn]
  · split
    · have hnodup : (acc.2.orderedInsert (fun a b => key a ≤ key b) p).Nodup := by
        rw [(perm_orderedInsert _ p acc.2).nodup_iff]
        exact nodup_cons.mpr ⟨hpush, hsorted.imp fun hlt heq => hlt.ne (congrArg _ heq)⟩
      exact (((hsorted.imp fun h => le_of_lt h).orderedInsert p acc.2).and hnodup).imp
        fun h => lt_of_le_of_ne h.1 fun heq => h.2 (hkey heq)
    · exact hsorted
  · rw [hvalue, mem_append, List.mem_singleton, or_and_right, ← or_assoc, ← hmem]
    split
    next hready =>
      rw [mem_orderedInsert, or_comm]
      refine or_congr_right (and_iff_left_of_imp ?_).symm
      rintro rfl
      exact hready
    next hready =>
      refine (or_iff_left ?_).symm
      rintro ⟨rfl, h⟩
      exact hready h

end

/-- Every node that is told has a count. -/
theorem foldl_release_eq (edges : List ε) : ∀ acc : Dict ε ℕ × List ε, (∀ e ∈ edges, e ∈ acc.1) →
    edges.foldl release acc = edges.foldl (updatePush id (· - 1) 0 (· = 0)) acc := by
  induction edges with
  | nil => exact fun _ _ => rfl
  | cons e edges ih =>
    intro acc hedges
    have hstep : release acc e = updatePush id (· - 1) 0 (· = 0) acc e := if_pos (hedges e mem_cons_self)
    rw [foldl_cons, foldl_cons, hstep]
    exact ih _ fun x hx => (mem_insert _).mpr (.inr (hedges x (mem_cons_of_mem _ hx)))

/-- The state of the loop when `left` has not been yielded yet. -/
structure Yielding (nodes left : Finset ε) (g : ε → Finset ε) (degreeMap : Dict ε ℕ)
    (heap : List ε) : Prop where
  sub : left ⊆ nodes
  keys : ∀ {n}, n ∈ degreeMap ↔ n ∈ nodes
  degree : ∀ {n}, n ∈ left → degreeMap.getD n 0 = (g n ∩ left).card
  sorted : heap.Pairwise (· < ·)
  ready : ∀ {n}, n ∈ heap ↔ Ready (fun a b => b ∈ g a) left n
  settled : ∀ {n m}, n ∈ nodes → n ∉ left → m ∈ left → m ∉ g n

theorem card_inter_eq_zero {n : ε} : (g n ∩ left).card = 0 ↔ ∀ m ∈ left, m ∉ g n := by
  rw [Finset.card_eq_zero, ← Finset.disjoint_iff_inter_eq_empty, Finset.disjoint_right]

variable {reverseGraph : Dict ε (List ε)}

/-- One turn of the loop. -/
theorem Yielding.next {node : ε} (hrev : ∀ {m n}, n ∈ reverseGraph.getD m [] ↔ n ∈ nodes ∧ m ∈ g n)
    (hnodup : (reverseGraph.getD node []).Nodup) (h : Yielding nodes left g degreeMap (node :: heap)) :
    Yielding nodes (left.erase node) g ((reverseGraph.getD node []).foldl release (degreeMap, heap)).1
      ((reverseGraph.getD node []).foldl release (degreeMap, heap)).2 := by
  have hready : Ready (fun a b => b ∈ g a) left node := h.ready.mp mem_cons_self
  have hsorted := pairwise_cons.mp h.sorted
  have hcard : ∀ n, (g n ∩ left.erase node).card =
      if node ∈ g n then (g n ∩ left).card - 1 else (g n ∩ left).card := by
    intro n
    rw [inter_erase, card_erase_eq_ite]
    simp only [mem_inter, hready.1, and_true]
  have hparents : ∀ n, n ∈ reverseGraph.getD node [] ↔ n ∈ left ∧ node ∈ g n :=
    fun n => hrev.trans (dependant_iff hready h.sub h.settled)
  rw [foldl_release_eq _ _ fun n hn => h.keys.mpr (hrev.mp hn).1]
  obtain ⟨hkeys, hdegree, hsorted', hin⟩ := foldl_updatePush_spec Function.injective_id (· - 1) 0 (· = 0)
    (reverseGraph.getD node []) degreeMap heap hnodup (fun n hn hheap =>
      (h.ready.mp (mem_cons_of_mem _ hheap)).2 node hready.1 (hrev.mp hn).2) hsorted.2
  refine ⟨(erase_subset _ _).trans h.sub, fun {n} => ?_, ?_, hsorted', fun {n} => ?_,
    settled_erase hready h.settled⟩
  · rw [hkeys, h.keys]
    exact or_iff_left_of_imp fun hn => (hrev.mp hn).1
  · intro n hn
    have hleft := mem_of_mem_erase hn
    rw [hdegree, hcard, h.degree hleft]
    simp only [hparents, hleft, true_and]
  · rw [hin, ← mem_heap_iff_ready (h.sorted.imp fun hlt => hlt.ne) h.ready]
    refine or_congr_right ((and_congr_left' (hparents n)).trans (and_congr_right fun hn => ?_))
    rw [h.degree hn.1, ← card_inter_eq_zero, hcard, if_pos hn.2]

/-- The loop yields Kahn's order of what is left. -/
theorem yieldNodes_kahn (hrev : ∀ {m n}, n ∈ reverseGraph.getD m [] ↔ n ∈ nodes ∧ m ∈ g n)
    (hnodup : ∀ m, (reverseGraph.getD m []).Nodup) :
    ∀ (fuel : ℕ) (left : Finset ε) (degreeMap : Dict ε ℕ) (heap : List ε), left.card ≤ fuel →
      Yielding nodes left g degreeMap heap →
      KahnOrder (fun a b => b ∈ g a) id left (yieldNodes reverseGraph fuel degreeMap heap)
  | 0, _, _, _, hcard, _ => .stop fun _ => not_ready_of_card hcard
  | fuel + 1, left, degreeMap, [], _, h =>
    .stop fun n hn => absurd (h.ready.mpr hn) not_mem_nil
  | fuel + 1, left, degreeMap, node :: heap, hcard, h => by
    have hready := h.ready.mp mem_cons_self
    have hlt := card_erase_lt_of_mem hready.1
    refine .next hready (fun m hm => ?_) ?_
    · rcases mem_cons.mp (h.ready.mpr hm) with rfl | hmem
      · exact le_rfl
      · exact le_of_lt ((pairwise_cons.mp h.sorted).1 m hmem)
    · exact yieldNodes_kahn hrev hnodup fuel _ _ _ (by omega) (h.next hrev (hnodup node))

/-- **Topological order.**  `sorted_topologically` yields Kahn's order of the nodes, smallest node
first. -/
theorem sortedTopologically_kahn (nodes : List ε) (graph : Dict ε (List ε)) :
    KahnOrder (fun a b => b ∈ graph.getD a []) id nodes.toFinset (sortedTopologically nodes graph) := by
  have hstart : Counts nodes.toFinset (fun _ => ∅) (Dict.ofKeys nodes fun _ => 0, ∅) := by
    refine ⟨?_, ?_, ?_, ?_⟩
    · intro n
      rw [← lookup_isSome, Dict.lookup_ofKeys, mem_toFinset]
      split <;> simp [*]
    · intro n hn
      rw [Dict.getD_of_lookup (v := 0)]
      · simp
      · rw [Dict.lookup_ofKeys, if_pos (mem_toFinset.mp hn)]
    · simp [Dict.getD]
    · simp [Dict.getD]
  obtain ⟨g, hcounts, hg⟩ := hstart.foldl_countEdges graph.entries graph.nodupKeys (fun entry _ => rfl)
  have hgraph : ∀ n ∈ nodes.toFinset, g n = (graph.getD n []).toFinset := by
    intro n hn
    rw [hg n hn, Dict.getD, AList.lookup]
    cases dlookup n graph.entries <;> rfl
  have hzero : Yielding nodes.toFinset nodes.toFinset g
      (graph.entries.foldl countEdges (Dict.ofKeys nodes fun _ => 0, ∅)).1
      ((((graph.entries.foldl countEdges (Dict.ofKeys nodes fun _ => 0, ∅)).1.entries.filter
        fun entry => entry.2 = 0).map (·.1)).insertionSort (· ≤ ·)) := by
    refine ⟨Finset.Subset.refl _, hcounts.keys, hcounts.degree, ?_, ?_, fun hn hleft => absurd hn hleft⟩
    · refine pairwise_lt_insertionSort ?_
      exact (filter_sublist.map _).nodup (keys_nodup _)
    · intro n
      rw [mem_insertionSort, Ready, ← card_inter_eq_zero, List.mem_map]
      constructor
      · rintro ⟨⟨m, d⟩, hmem, rfl⟩
        rw [mem_filter, decide_eq_true_eq] at hmem
        obtain ⟨hmem, rfl⟩ := hmem
        have hlook := mem_lookup_iff.mpr hmem
        have hnode := hcounts.keys.mp (mem_keys.mpr (mem_map_of_mem hmem))
        exact ⟨hnode, by rw [← hcounts.degree hnode, Dict.getD_of_lookup hlook]⟩
      · rintro ⟨hnode, hcard⟩
        obtain ⟨d, hd⟩ := Dict.exists_lookup (hcounts.keys.mpr hnode)
        rw [← hcounts.degree hnode, Dict.getD_of_lookup hd] at hcard
        exact ⟨⟨n, d⟩, mem_filter.mpr ⟨mem_lookup_iff.mp hd, by simpa using hcard⟩, rfl⟩
  have hkahn := yieldNodes_kahn hcounts.reverse (fun _ => hcounts.nodup) nodes.length
    nodes.toFinset _ _ (toFinset_card_le nodes) hzero
  refine hkahn.congr fun n hn m => ?_
  rw [hgraph n hn, mem_toFinset]

end

/-- If the dependencies of the nodes have no cycle, the output lists every node once, after its
dependencies. -/
theorem sortedTopologically_spec {nodes : List ε} {graph : Dict ε (List ε)} {r : ε → ε → Prop}
    (hr : Acyclic r) (hgraph : ∀ n ∈ nodes, ∀ m ∈ graph.getD n [], r n m) :
    (sortedTopologically nodes graph).Nodup ∧ (∀ n, n ∈ sortedTopologically nodes graph ↔ n ∈ nodes) ∧
      ∀ before n rest, sortedTopologically nodes graph = before ++ n :: rest →
        ∀ m ∈ graph.getD n [], m ∈ nodes → m ∈ before := by
  have hkahn := sortedTopologically_kahn nodes graph
  -- edges that leave the nodes do not matter
  have hkahn' := hkahn.congr fun n hn m => (and_iff_right (mem_toFinset.mp hn)).symm
  have hacyclic : Acyclic fun a b => a ∈ nodes ∧ b ∈ graph.getD a [] :=
    hr.mono fun a b hab => hgraph a hab.1 b hab.2
  refine ⟨hkahn.nodup, fun n => ?_, fun before n rest heq m hm hmem => ?_⟩
  · rw [hkahn'.mem_iff hacyclic, mem_toFinset]
  · exact (heq ▸ hkahn).of_append.1 m (mem_toFinset.mpr hmem) hm

end Synapse.Util
