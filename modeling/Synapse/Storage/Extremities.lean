import Synapse.Util.Dict
import Synapse.Util.Loops
import Synapse.Util.Search

/-!
# New forward extremities

`_calculate_new_extremities` starts from the old forward extremities and the accepted events of a
batch and takes away what is no longer at the end of the graph.  It asks three questions about an
event: is it a prev event of an accepted event of the batch; is it a prev event of an accepted event
in the database; can it be reached from a prev event of the batch through soft-failed or rejected
events of the database?  `Superseded` is what these amount to, and the result is the rest.

The graph in the database is that of `event_edges`, which has no rows for rejected events.
-/

namespace Synapse.Storage

open Synapse.Util Relation List

/-- What is read of an event here; `δ` are server names. -/
structure Event (ε δ : Type) where
  eventId : ε
  prevEventIds : List ε
  isState : Bool
  /-- `internal_metadata.is_outlier()`. -/
  outlier : Bool
  /-- `internal_metadata.is_soft_failed()`. -/
  softFailed : Bool
  /-- The domain of the sender. -/
  domain : δ
  /-- The type is `EventTypes.Dummy`. -/
  dummy : Bool
  depth : ℤ
  originServerTs : ℤ
  /-- The membership is `join`. -/
  join : Bool

/-- What is read of an `EventContext`; `κ` are pairs of an event type and a state key, `γ` state
groups. -/
structure EventContext (ε κ γ : Type) where
  stateGroup : Option γ
  stateGroupBeforeEvent : Option γ
  rejected : Bool
  stateGroupDeltas : Dict (γ × γ) (Dict κ ε)

/-- Events that are persisted together, with their contexts. -/
abbrev Batch (ε δ κ γ : Type) := List (Event ε δ × EventContext ε κ γ)

/-- A row of `events`, with the event of `event_json` and whether `rejections` has a row for it.  The
column `outlier` can change; the event does not. -/
structure StoredEvent (ε δ : Type) where
  event : Event ε δ
  outlier : Bool
  rejected : Bool

/-- The events of a room in the database. -/
structure EventGraph (ε δ : Type) where
  events : Dict ε (StoredEvent ε δ)
  /-- Rows `(event_id, prev_event_id)`. -/
  eventEdges : List (ε × ε)
  forwardExtremities : Finset ε

variable {ε δ κ γ : Type} [DecidableEq ε]

/-! ## The code -/

namespace EventGraph
variable (G : EventGraph ε δ)

/-- An event that is neither an outlier, rejected nor soft-failed. -/
def accepted (e : ε) : Bool :=
  match G.events.lookup e with
  | some row => !row.outlier && !row.rejected && !row.event.softFailed
  | none => false

/-- A soft-failed or rejected event that is not an outlier. -/
def failed (e : ε) : Bool :=
  match G.events.lookup e with
  | some row => !row.outlier && (row.event.softFailed || row.rejected)
  | none => false

/-- `_get_events_which_are_prevs`. -/
def getEventsWhichArePrevs (eventIds : Finset ε) : List ε :=
  (G.eventEdges.filter fun edge => edge.2 ∈ eventIds ∧ G.accepted edge.1).map Prod.snd

/-- The prev events of the soft-failed and rejected events among those given. -/
def prevsOfFailed (eventIds : Finset ε) : Finset ε :=
  ((G.eventEdges.filter fun edge => edge.1 ∈ eventIds ∧ G.failed edge.1).map Prod.snd).toFinset

/-- `_get_prevs_before_rejected`. -/
def getPrevsBeforeRejected (eventIds : List ε) : Option (Finset ε) :=
  (batchIter 100 eventIds).foldlM (fun existingPrevs batch =>
    search G.prevsOfFailed (G.eventEdges.length + 1) batch.toFinset existingPrevs) ∅

end EventGraph

/-- The events of a batch that are neither outliers, rejected nor soft-failed. -/
def newEvents (batch : Batch ε δ κ γ) : List (Event ε δ) :=
  (batch.filter fun ec => !ec.1.outlier && !ec.2.rejected && !ec.1.softFailed).map Prod.fst

/-- `_calculate_new_extremities`. -/
def calculateNewExtremities (G : EventGraph ε δ) (batch : Batch ε δ κ γ) :
    Option (Finset ε) := do
  let new := newEvents batch
  let prevs := new.flatMap (·.prevEventIds)
  let result := (G.forwardExtremities ∪ (new.map (·.eventId)).toFinset) \ prevs.toFinset
  let result := result \ (G.getEventsWhichArePrevs result).toFinset
  let existingPrevs ← G.getPrevsBeforeRejected prevs
  return result \ existingPrevs

/-! ## What it computes -/

/-- An edge out of a soft-failed or rejected event. -/
def FailedEdge (G : EventGraph ε δ) (x y : ε) : Prop := G.failed x = true ∧ (x, y) ∈ G.eventEdges

/-- Why an event is not a forward extremity after some new events. -/
inductive Superseded (G : EventGraph ε δ) (new : List (Event ε δ)) (e : ε) : Prop
  | byNew (n : Event ε δ) (hn : n ∈ new) (he : e ∈ n.prevEventIds)
  | byStored (m : ε) (hm : G.accepted m = true) (he : (m, e) ∈ G.eventEdges)
  | throughFailed (n : Event ε δ) (hn : n ∈ new) (x : ε) (hx : x ∈ n.prevEventIds)
      (he : TransGen (FailedEdge G) x e)

omit [DecidableEq ε] in
theorem mem_newEvents {batch : Batch ε δ κ γ} {n : Event ε δ} :
    n ∈ newEvents batch ↔ ∃ ctx, (n, ctx) ∈ batch ∧ n.outlier = false ∧ ctx.rejected = false ∧
      n.softFailed = false := by
  simp [newEvents, and_assoc]

section
variable {G : EventGraph ε δ} {e : ε} {eventIds : Finset ε}

theorem EventGraph.mem_getEventsWhichArePrevs : e ∈ G.getEventsWhichArePrevs eventIds ↔
      e ∈ eventIds ∧ ∃ m, G.accepted m = true ∧ (m, e) ∈ G.eventEdges := by
  simp only [EventGraph.getEventsWhichArePrevs, mem_map, mem_filter, decide_eq_true_eq]
  constructor
  · rintro ⟨⟨m, e⟩, ⟨hedge, hmem, hacc⟩, rfl⟩
    exact ⟨hmem, m, hacc, hedge⟩
  · rintro ⟨hmem, m, hacc, hedge⟩
    exact ⟨(m, e), ⟨hedge, hmem, hacc⟩, rfl⟩

theorem EventGraph.mem_prevsOfFailed :
    e ∈ G.prevsOfFailed eventIds ↔ ∃ x ∈ eventIds, FailedEdge G x e := by
  simp only [EventGraph.prevsOfFailed, mem_toFinset, mem_map, mem_filter, decide_eq_true_eq]
  constructor
  · rintro ⟨⟨x, e⟩, ⟨hedge, hmem, hfailed⟩, rfl⟩
    exact ⟨x, hmem, hfailed, hedge⟩
  · rintro ⟨x, hmem, hfailed, hedge⟩
    exact ⟨(x, e), ⟨hedge, hmem, hfailed⟩, rfl⟩

variable (G : EventGraph ε δ)

/-- `_get_prevs_before_rejected` finds what is below the events through soft-failed and rejected
events. -/
theorem EventGraph.getPrevsBeforeRejected_spec (eventIds : List ε) :
    ∃ prevs, G.getPrevsBeforeRejected eventIds = some prevs ∧
      ∀ e, e ∈ prevs ↔ ∃ x ∈ eventIds, TransGen (FailedEdge G) x e := by
  obtain ⟨prevs, hrun, hprevs⟩ := foldlM_inv
    (I := fun done prevs => ∀ e, e ∈ prevs ↔ ∃ x ∈ done.flatten, TransGen (FailedEdge G) x e)
    (batchIter 100 eventIds) (s := ∅) (by
      intro done batch rest prevs _ hprevs
      have hedge : ∀ x y, FailedEdge G x y → y ∈ (G.eventEdges.map Prod.snd).toFinset :=
        fun x y hxy => mem_toFinset.mpr (mem_map.mpr ⟨(x, y), hxy.2, rfl⟩)
      have hcard : ((G.eventEdges.map Prod.snd).toFinset \ prevs).card < G.eventEdges.length + 1 := by
        refine Nat.lt_succ_of_le ((Finset.card_le_card Finset.sdiff_subset).trans ?_)
        exact (toFinset_card_le _).trans (length_map _).le
      -- what earlier pieces have found has been followed to the end
      have hclosed : ∀ x ∈ prevs, x ∉ batch.toFinset → ∀ y, FailedEdge G x y → y ∈ prevs := by
        intro x hx _ y hxy
        obtain ⟨z, hz, hzx⟩ := (hprevs x).mp hx
        exact (hprevs y).mpr ⟨z, hz, hzx.tail hxy⟩
      obtain ⟨prevs', hrun, hprevs'⟩ := search_spec _ (fun C y => EventGraph.mem_prevsOfFailed)
        hedge hclosed (.inr hcard)
      refine ⟨prevs', hrun, fun e => ?_⟩
      rw [hprevs', hprevs, flatten_append, flatten_singleton]
      simp only [mem_append, mem_toFinset, or_and_right, exists_or])
    (fun e => by simp)
  rw [flatten_batchIter (by decide)] at hprevs
  exact ⟨prevs, hrun, hprevs⟩

/-- The new forward extremities: the old ones and the new events, but for what is superseded. -/
theorem calculateNewExtremities_spec (batch : Batch ε δ κ γ) :
    ∃ result, calculateNewExtremities G batch = some result ∧ ∀ e, e ∈ result ↔
        (e ∈ G.forwardExtremities ∨ ∃ n ∈ newEvents batch, n.eventId = e) ∧
          ¬ Superseded G (newEvents batch) e := by
  obtain ⟨existingPrevs, hrun, hexisting⟩ :=
    G.getPrevsBeforeRejected_spec ((newEvents batch).flatMap (·.prevEventIds))
  unfold calculateNewExtremities
  dsimp only
  rw [hrun]
  refine ⟨_, rfl, fun e => ?_⟩
  simp only [Finset.mem_sdiff, Finset.mem_union, mem_toFinset, mem_map,
    mem_flatMap, EventGraph.mem_getEventsWhichArePrevs, hexisting]
  constructor
  · rintro ⟨⟨⟨hmem, hnew⟩, hstored⟩, hfailed⟩
    refine ⟨hmem, fun hsup => ?_⟩
    cases hsup with
    | byNew n hn he => exact hnew ⟨n, hn, he⟩
    | byStored m hm he => exact hstored ⟨⟨hmem, hnew⟩, m, hm, he⟩
    | throughFailed n hn x hx he => exact hfailed ⟨x, ⟨n, hn, hx⟩, he⟩
  · rintro ⟨hmem, hsup⟩
    refine ⟨⟨⟨hmem, ?_⟩, ?_⟩, ?_⟩
    · rintro ⟨n, hn, he⟩
      exact hsup (.byNew n hn he)
    · rintro ⟨_, m, hm, he⟩
      exact hsup (.byStored m hm he)
    · rintro ⟨x, ⟨n, hn, hx⟩, he⟩
      exact hsup (.throughFailed n hn x hx he)

end
end Synapse.Storage
