import Mathlib.Data.Prod.Lex
import Synapse.Util.IterUtils

/-!
# `lexicographical_topological_sort`

The generator of `synapse.state.v2` keeps for every node the set of edges that lead to nodes it has not
yielded yet, and a heap of the nodes for which this set is empty, by their keys.  When it yields a node
it takes the node out of the sets of those that have an edge to it.  The heap is a sorted list here.

The sets are always the dependencies that are left, so the heap holds exactly the nodes that are ready,
and the function yields the order of `Synapse.Util.Kahn`.  That order depends on the graph and on the
keys alone, not on how the sets are walked.
-/

namespace Synapse.State

open Synapse.Util List

/-- How the sort walks the sets that it meets. -/
structure SortOrders (ε : Type) where
  /-- The entries of the graph. -/
  graph : IterOrder
  /-- The edges of a node. -/
  edges : ε → IterOrder
  /-- The nodes with an edge to a node. -/
  reverse : ε → IterOrder

variable {ε β : Type} [LinearOrder ε] [LinearOrder β]

/-! ## The code -/

/-- The entries of the heap, `(key(node), node)`. -/
def heapKey (key : ε → β) (node : ε) : β ×ₗ ε := toLex (key node, node)

/-- `reverse_graph.setdefault(edge, set()).add(node)`. -/
def addReverse (node : ε) (reverseGraph : Dict ε (List ε)) (edge : ε) : Dict ε (List ε) :=
  reverseGraph.insert edge ((reverseGraph.getD edge []).insert node)

/-- The loop body for one entry of the graph. -/
def scanEntry (o : SortOrders ε) (acc : List ε × Dict ε (List ε)) (entry : Sigma fun _ : ε => List ε) :
    List ε × Dict ε (List ε) :=
  let zeroOutdegree := if entry.2 = [] then acc.1 ++ [entry.1] else acc.1
  let reverseGraph := acc.2.insert entry.1 (acc.2.getD entry.1 [])
  (zeroOutdegree, ((o.edges entry.1).order entry.2).foldl (addReverse entry.1) reverseGraph)

/-- The loop body for a node with an edge to the one that is yielded. -/
def releaseParent (key : ε → β) (node : ε) (acc : Dict ε (List ε) × List ε) (parent : ε) :
    Dict ε (List ε) × List ε :=
  let out := (acc.1.getD parent []).filter (· ≠ node)
  (acc.1.insert parent out,
    if out = [] then acc.2.orderedInsert (fun a b => heapKey key a ≤ heapKey key b) parent
    else acc.2)

/-- The `while zero_outdegree` loop. -/
def yieldByKey (o : SortOrders ε) (key : ε → β) (reverseGraph : Dict ε (List ε)) :
    ℕ → Dict ε (List ε) → List ε → List ε
  | 0, _, _ => []
  | _ + 1, _, [] => []
  | fuel + 1, outdegreeMap, node :: heap =>
    let (outdegreeMap, heap) := ((o.reverse node).order (reverseGraph.getD node [])).foldl
      (releaseParent key node) (outdegreeMap, heap)
    node :: yieldByKey o key reverseGraph fuel outdegreeMap heap

/-- `lexicographical_topological_sort`.  Every turn of the loop yields another node, so there are no
more turns than nodes. -/
def lexicographicalTopologicalSort (o : SortOrders ε) (graph : Dict ε (List ε)) (key : ε → β) : List ε :=
  let (zeroOutdegree, reverseGraph) := (o.graph.order graph.entries).foldl (scanEntry o) ([], ∅)
  yieldByKey o key reverseGraph graph.keys.length graph
    (zeroOutdegree.insertionSort fun a b => heapKey key a ≤ heapKey key b)

/-! ## Scanning the graph -/

omit [LinearOrder ε] [LinearOrder β] in
theorem heapKey_injective (key : ε → β) : Function.Injective (heapKey key) := by
  intro a b h
  have h' : (key a, a) = (key b, b) := toLex.injective h
  exact (Prod.mk.inj h').2

section
variable {o : SortOrders ε}

theorem foldl_addReverse_spec (node : ε) (edges : List ε) : ∀ reverseGraph : Dict ε (List ε),
    (∀ m, (reverseGraph.getD m []).Nodup) →
    (∀ m n, n ∈ (edges.foldl (addReverse node) reverseGraph).getD m [] ↔
      n ∈ reverseGraph.getD m [] ∨ n = node ∧ m ∈ edges) ∧
    ∀ m, ((edges.foldl (addReverse node) reverseGraph).getD m []).Nodup := by
  induction edges with
  | nil =>
    intro reverseGraph hnodup
    refine ⟨fun m n => ?_, hnodup⟩
    simp
  | cons edge edges ih =>
    intro reverseGraph hnodup
    obtain ⟨hmem, hnodup'⟩ := ih (addReverse node reverseGraph edge) (fun m => by
      rw [addReverse, Dict.getD_insert]
      split
      · exact (hnodup edge).insert
      · exact hnodup m)
    refine ⟨fun m n => ?_, hnodup'⟩
    rw [foldl_cons, hmem, addReverse, Dict.mem_getD_insert_insert, mem_cons]
    tauto

/-- What is known after some entries of the graph. -/
structure Scanned (entries : List (Sigma fun _ : ε => List ε)) (acc : List ε × Dict ε (List ε)) :
    Prop where
  zero : ∀ n, n ∈ acc.1 ↔ ⟨n, []⟩ ∈ entries
  nodup : acc.1.Nodup
  reverse : ∀ m n, n ∈ acc.2.getD m [] ↔ ∃ edges, ⟨n, edges⟩ ∈ entries ∧ m ∈ edges
  nodupReverse : ∀ m, (acc.2.getD m []).Nodup

theorem foldl_scanEntry_spec (entries : List (Sigma fun _ : ε => List ε)) (hkeys : entries.NodupKeys) :
    Scanned entries (entries.foldl (scanEntry o) ([], ∅)) := by
  refine foldl_inv entries (fun done entry rest acc hentries h => ?_)
    ⟨by simp, nodup_nil, by simp [Dict.getD], by simp [Dict.getD]⟩
  obtain ⟨node, edges⟩ := entry
  have hnew : ∀ edges', ⟨node, edges'⟩ ∉ done := by
    intro edges' hmem
    unfold List.NodupKeys at hkeys
    rw [hentries, keys_append] at hkeys
    exact (nodup_append.mp hkeys).2.2 _ (mem_keys_of_mem hmem) node mem_cons_self rfl
  obtain ⟨hmem, hnodup⟩ := foldl_addReverse_spec node ((o.edges node).order edges)
    (acc.2.insert node (acc.2.getD node [])) (fun m => by
      rw [Dict.getD_insert_getD]
      exact h.nodupReverse m)
  refine ⟨fun n => ?_, ?_, fun m n => ?_, hnodup⟩
  · show n ∈ (if edges = [] then acc.1 ++ [node] else acc.1) ↔ _
    rw [mem_append, ← h.zero]
    split
    next hempty => simp [hempty]
    next hne =>
      rw [mem_singleton, or_iff_left]
      intro heq
      injection heq with _ h2
      exact hne h2.symm
  · show (if edges = [] then acc.1 ++ [node] else acc.1).Nodup
    split
    · refine nodup_append.mpr ⟨h.nodup, nodup_singleton _, ?_⟩
      rintro a ha b hb rfl
      rw [mem_singleton.mp hb] at ha
      exact hnew [] ((h.zero node).mp ha)
    · exact h.nodup
  · refine (hmem m n).trans ?_
    rw [Dict.getD_insert_getD, h.reverse, IterOrder.mem_order]
    simp only [mem_append, mem_singleton]
    constructor
    · rintro (⟨edges', hin, hm⟩ | ⟨rfl, hm⟩)
      · exact ⟨edges', .inl hin, hm⟩
      · exact ⟨edges, .inr rfl, hm⟩
    · rintro ⟨edges', hin | heq, hm⟩
      · exact .inl ⟨edges', hin, hm⟩
      · injection heq with h1 h2
        subst h1
        subst h2
        exact .inr ⟨rfl, hm⟩

end

/-! ## Yielding -/

section
variable {o : SortOrders ε} {key : ε → β} {deps : ε → ε → Prop} {nodes left : Finset ε}
  {outdegreeMap : Dict ε (List ε)} {heap : List ε} {node : ε}

/-- A heap in the order of its keys. -/
def ByKey (key : ε → β) (heap : List ε) : Prop := heap.Pairwise fun a b => heapKey key a < heapKey key b

theorem byKey_insertionSort (key : ε → β) (hheap : heap.Nodup) :
    ByKey key (heap.insertionSort fun a b => heapKey key a ≤ heapKey key b) :=
  pairwise_lt_orderBy (hheap.map (heapKey_injective key))

/-- The state of the loop when `left` has not been yielded yet. -/
structure YieldInv (key : ε → β) (deps : ε → ε → Prop) (nodes left : Finset ε)
    (outdegreeMap : Dict ε (List ε)) (heap : List ε) : Prop where
  sub : left ⊆ nodes
  out : ∀ {n m}, n ∈ left → (m ∈ outdegreeMap.getD n [] ↔ deps n m ∧ m ∈ left)
  sorted : ByKey key heap
  ready : ∀ {n}, n ∈ heap ↔ Ready deps left n
  settled : ∀ {n m}, n ∈ nodes → n ∉ left → m ∈ left → ¬ deps n m

/-- One turn of the loop. -/
theorem YieldInv.next {parents : List ε} (hparents : ∀ n, n ∈ parents ↔ n ∈ nodes ∧ deps n node)
    (hnodup : parents.Nodup) (h : YieldInv key deps nodes left outdegreeMap (node :: heap)) :
    YieldInv key deps nodes (left.erase node)
      (parents.foldl (releaseParent key node) (outdegreeMap, heap)).1
      (parents.foldl (releaseParent key node) (outdegreeMap, heap)).2 := by
  have hready : Ready deps left node := h.ready.mp mem_cons_self
  have hsorted := pairwise_cons.mp h.sorted
  have hleft : ∀ n, n ∈ parents ↔ n ∈ left ∧ deps n node :=
    fun n => (hparents n).trans (dependant_iff hready h.sub h.settled)
  obtain ⟨_, hget, hsorted', hmem⟩ := foldl_updatePush_spec (heapKey_injective key)
    (fun edges => edges.filter (· ≠ node)) [] (· = []) parents outdegreeMap heap hnodup
    (fun p hp hheap =>
      (h.ready.mp (mem_cons_of_mem _ hheap)).2 node hready.1 ((hparents p).mp hp).2) hsorted.2
  have hout : ∀ {n m}, n ∈ left →
      (m ∈ (outdegreeMap.getD n []).filter (· ≠ node) ↔ deps n m ∧ m ∈ left.erase node) := by
    intro n m hn
    rw [mem_filter, h.out hn, decide_eq_true_eq, Finset.mem_erase, and_assoc, and_comm (a := m ∈ left)]
  refine ⟨(Finset.erase_subset _ _).trans h.sub, ?_, hsorted', fun {n} => ?_,
    settled_erase hready h.settled⟩
  · intro n m hn
    have hnleft := Finset.mem_of_mem_erase hn
    refine (congrArg (m ∈ ·) (hget n)).to_iff.trans ?_
    split
    · exact hout hnleft
    next hnot =>
      rw [h.out hnleft, Finset.mem_erase]
      refine and_congr_right fun hd => ⟨fun hm => ⟨?_, hm⟩, And.right⟩
      rintro rfl
      exact hnot ((hleft n).mpr ⟨hnleft, hd⟩)
  · refine (hmem n).trans ?_
    rw [← mem_heap_iff_ready (h.sorted.imp fun hlt heq => hlt.ne (congrArg _ heq)) h.ready]
    refine or_congr_right ((and_congr_left' (hleft n)).trans (and_congr_right fun hn => ?_))
    rw [eq_nil_iff_forall_not_mem]
    refine forall_congr' fun m => ?_
    rw [hout hn.1, not_and']

/-- The loop yields Kahn's order of what is left. -/
theorem yieldByKey_kahn {reverseGraph : Dict ε (List ε)}
    (hrev : ∀ m n, n ∈ reverseGraph.getD m [] ↔ n ∈ nodes ∧ deps n m)
    (hnodup : ∀ m, (reverseGraph.getD m []).Nodup) :
    ∀ (fuel : ℕ) (left : Finset ε) (outdegreeMap : Dict ε (List ε)) (heap : List ε),
      left.card ≤ fuel → YieldInv key deps nodes left outdegreeMap heap →
      KahnOrder deps (heapKey key) left (yieldByKey o key reverseGraph fuel outdegreeMap heap)
  | 0, _, _, _, hcard, _ => .stop fun _ => not_ready_of_card hcard
  | fuel + 1, left, outdegreeMap, [], _, h =>
    .stop fun n hn => absurd (h.ready.mpr hn) not_mem_nil
  | fuel + 1, left, outdegreeMap, node :: heap, hcard, h => by
    have hready := h.ready.mp mem_cons_self
    have hlt := Finset.card_erase_lt_of_mem hready.1
    refine .next hready (fun m hm => ?_) ?_
    · rcases mem_cons.mp (h.ready.mpr hm) with rfl | hmem
      · exact le_rfl
      · exact le_of_lt ((pairwise_cons.mp h.sorted).1 m hmem)
    · refine yieldByKey_kahn hrev hnodup fuel _ _ _ (by omega) (h.next (fun n => ?_) ?_)
      · rw [IterOrder.mem_order, hrev]
      · exact ((o.reverse node).perm _).nodup_iff.mpr (hnodup node)

end

/-- **Lexicographical topological order.**  If all edges lead to nodes of the graph, the nodes come in
Kahn's order, smallest key first. -/
theorem lexicographicalTopologicalSort_kahn (o : SortOrders ε) (graph : Dict ε (List ε)) (key : ε → β)
    (hclosed : ∀ n m, m ∈ graph.getD n [] → m ∈ graph) :
    KahnOrder (fun n m => m ∈ graph.getD n []) (heapKey key) graph.keys.toFinset
      (lexicographicalTopologicalSort o graph key) := by
  have hperm := o.graph.perm graph.entries
  have hscan : Scanned (o.graph.order graph.entries)
      ((o.graph.order graph.entries).foldl (scanEntry o) ([], ∅)) :=
    foldl_scanEntry_spec _ (perm_nodupKeys hperm |>.mpr graph.nodupKeys)
  have hentry : ∀ {n edges}, ⟨n, edges⟩ ∈ o.graph.order graph.entries ↔ graph.lookup n = some edges := by
    intro n edges
    rw [IterOrder.mem_order]
    exact AList.mem_lookup_iff.symm
  have hmem : ∀ {n}, n ∈ graph.keys.toFinset ↔ n ∈ graph := by
    intro n
    rw [mem_toFinset]
    exact AList.mem_keys.symm
  have hrev : ∀ m n, n ∈ ((o.graph.order graph.entries).foldl (scanEntry o) ([], ∅)).2.getD m [] ↔
      n ∈ graph.keys.toFinset ∧ m ∈ graph.getD n [] := by
    intro m n
    rw [hscan.reverse, hmem]
    constructor
    · rintro ⟨edges, hin, hm⟩
      have hlook := hentry.mp hin
      exact ⟨Dict.mem_of_lookup hlook, by rwa [Dict.getD_of_lookup hlook]⟩
    · rintro ⟨hn, hm⟩
      obtain ⟨edges, hlook⟩ := Dict.exists_lookup hn
      rw [Dict.getD_of_lookup hlook] at hm
      exact ⟨edges, hentry.mpr hlook, hm⟩
  refine yieldByKey_kahn hrev hscan.nodupReverse _ _ _ _ (toFinset_card_le _)
    ⟨Finset.Subset.refl _, ?_, byKey_insertionSort key hscan.nodup, ?_, fun hn hnot => absurd hn hnot⟩
  · intro n m _
    exact (and_iff_left_of_imp fun hm => hmem.mpr (hclosed n m hm)).symm
  · intro n
    rw [mem_insertionSort, hscan.zero, hentry]
    constructor
    · intro hlook
      refine ⟨hmem.mpr (Dict.mem_of_lookup hlook), fun m _ hm => ?_⟩
      have hm' : m ∈ graph.getD n [] := hm
      rw [Dict.getD_of_lookup hlook] at hm'
      exact nomatch hm'
    · rintro ⟨hn, hnone⟩
      -- all edges lead to nodes, so a node without an edge into the graph has none
      obtain ⟨edges, hlook⟩ := Dict.exists_lookup (hmem.mp hn)
      have hempty : edges = [] := by
        refine eq_nil_iff_forall_not_mem.mpr fun m hm => ?_
        have hm' : m ∈ graph.getD n [] := by rwa [Dict.getD_of_lookup hlook]
        exact hnone m (hmem.mpr (hclosed n m hm')) hm'
      rw [hlook, hempty]

/-- **The sort is determined by the graph and the keys**: it yields each node once, after its dependencies,
and always one with the smallest key of those whose dependencies have been yielded. -/
theorem lexicographicalTopologicalSort_unique (o : SortOrders ε) (graph : Dict ε (List ε)) (key : ε → β)
    (hacyclic : Acyclic fun n m => m ∈ graph.getD n [])
    (hclosed : ∀ n m, m ∈ graph.getD n [] → m ∈ graph) :
    (lexicographicalTopologicalSort o graph key).Nodup ∧
    (∀ n, n ∈ lexicographicalTopologicalSort o graph key ↔ n ∈ graph) ∧
    (∀ before n rest, lexicographicalTopologicalSort o graph key = before ++ n :: rest →
      (∀ m ∈ graph.getD n [], m ∈ before) ∧
      ∀ m ∈ graph, m ∉ before → (∀ k ∈ graph.getD m [], k ∈ before) → key n ≤ key m) ∧
    ∀ o' graph' (key' : ε → β), (∀ n, n ∈ graph' ↔ n ∈ graph) →
      (∀ n m, m ∈ graph'.getD n [] ↔ m ∈ graph.getD n []) → (∀ n ∈ graph, key' n = key n) →
      lexicographicalTopologicalSort o' graph' key' = lexicographicalTopologicalSort o graph key := by
  have hkahn := lexicographicalTopologicalSort_kahn o graph key hclosed
  have hmem : ∀ n, n ∈ graph.keys.toFinset ↔ n ∈ graph := fun n => mem_toFinset.trans AList.mem_keys.symm
  refine ⟨hkahn.nodup, fun n => (hkahn.mem_iff hacyclic).trans (hmem n), ?_, ?_⟩
  · intro before n rest heq
    obtain ⟨hdeps, hmin⟩ := (heq ▸ hkahn).of_append
    simp only [hmem] at hdeps hmin
    refine ⟨fun m hm => hdeps m (hclosed n m hm) hm, fun m hm hnot hbefore => ?_⟩
    exact Prod.Lex.monotone_fst _ _ (hmin m hm hnot fun k _ hk => hbefore k hk)
  · intro o' graph' key' hnodes hedges hkeys
    have hkahn' := lexicographicalTopologicalSort_kahn o' graph' key'
      fun n m hm => (hnodes m).mpr (hclosed n m ((hedges n m).mp hm))
    have heq : graph'.keys.toFinset = graph.keys.toFinset := by
      ext n
      rw [hmem, mem_toFinset, AList.mem_keys.symm, hnodes]
    rw [heq] at hkahn'
    refine KahnOrder.unique (fun n _ m _ h => heapKey_injective key h) ?_ hkahn
    refine (hkahn'.congr fun n _ m => hedges n m).congr_key fun n hn => ?_
    unfold heapKey
    rw [hkeys n ((hmem n).mp hn)]

/-- One edge, from 1 to 0. -/
theorem mem_lexicographicalTopologicalSort_edge : 1 ∈ lexicographicalTopologicalSort
    ⟨.insertion, fun _ => .insertion, fun _ => .insertion⟩ (Dict.update ∅ [(1, [0]), (0, [])])
      (id : ℕ → ℕ) := by
  have hedge : ∀ n m, m ∈ Dict.getD (Dict.update ∅ [(1, [0]), (0, [])]) n [] → m = 0 ∧ n = 1 := by
    intro n m h
    rcases n with _ | _ | n
    · exact nomatch h
    · exact ⟨mem_singleton.mp h, rfl⟩
    · exact nomatch h
  refine ((lexicographicalTopologicalSort_unique _ _ _
    (Acyclic.of_lt (f := fun n => 1 - n) ?_) ?_).2.1 1).mpr (by decide)
  · intro n m h
    obtain ⟨rfl, rfl⟩ := hedge n m h
    decide
  · intro n m h
    rw [(hedge n m h).1]
    decide

end Synapse.State
