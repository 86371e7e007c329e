import Synapse.Storage.PersistEvents

/-!
# Forward extremities over a run

The forward extremities are meant to be the accepted events at the end of the graph, where soft-failed
and rejected events do not count: an event is *covered* when an accepted event reaches it along prev
events with only soft-failed and rejected events in between.  No forward extremity should be covered,
and every accepted event that is not covered should be one, unless it was pruned.

`_calculate_new_extremities` does not look at all of the graph.  It notices that an event is covered if
an accepted event, of the batch or stored, has it as a prev event, or if a path from the batch leads to
it through soft-failed events that were stored before and have edges, which rejected events and
outliers do not give.  It also trusts the batch: a stored event keeps what is stored of it, so that an
outlier of which a soft-failed copy comes is accepted from then on and no forward extremity.
`StepNoticed` says on the room before a step and the batch when neither matters, and
`persistChunks_noDangling_iff` that the property holds along a run exactly if every step meets it, as it
does when events come after their prev events and none is rejected (`stepNoticed_of_inOrder`).
-/

namespace Synapse.Storage

open Synapse.Util Relation Finset
open Option (any_eq_true some.inj)
open Except (ok.inj)

variable {ε δ κ : Type}

/-- A room and the extremities that `_prune_extremities` has dropped in it so far. -/
structure RoomRun (ε δ κ : Type) extends RoomDb ε δ κ where
  pruned : Finset ε

variable [DecidableEq ε]

/-! ## The property -/

namespace EventGraph
variable (G : EventGraph ε δ)

/-- The persisted event `a` has `b` as a prev event. -/
def Prev (a b : ε) : Prop := ∃ row, G.events.lookup a = some row ∧ b ∈ row.event.prevEventIds

/-- A persisted event that is soft-failed or rejected. -/
def Failing (a : ε) : Prop :=
  ∃ row, G.events.lookup a = some row ∧ (row.event.softFailed = true ∨ row.rejected = true)

/-- An accepted event reaches `e` along prev events, with only soft-failed and rejected events in
between. -/
def Covered (e : ε) : Prop :=
  ∃ m x, G.accepted m = true ∧ G.Prev m x ∧ ReflTransGen (fun a b => G.Failing a ∧ G.Prev a b) x e

/-- A persisted event that is soft-failed, and neither rejected nor an outlier. -/
def SoftFailed (a : ε) : Prop :=
  ∃ row, G.events.lookup a = some row ∧ row.outlier = false ∧ row.rejected = false ∧
    row.event.softFailed = true

end EventGraph

/-- No dangling forward extremities, and none missing. -/
structure NoDangling (room : RoomRun ε δ κ) : Prop where
  extremity : ∀ e ∈ room.forwardExtremities, ¬ room.toEventGraph.Covered e
  uncovered : ∀ e, room.toEventGraph.accepted e = true → ¬ room.toEventGraph.Covered e →
    e ∈ room.forwardExtremities ∨ e ∈ room.pruned

/-- That an event is covered can be seen from the new events and from the graph before them. -/
inductive Noticed (G : EventGraph ε δ) (new : List (Event ε δ)) (e : ε) : Prop
  | byNew (n : Event ε δ) (hn : n ∈ new) (he : e ∈ n.prevEventIds)
  | byStored (m : ε) (hm : G.accepted m = true) (he : G.Prev m e)
  | throughSoftFailed (n : Event ε δ) (hn : n ∈ new) (x : ε) (hx : x ∈ n.prevEventIds)
      (he : TransGen (fun a b => G.SoftFailed a ∧ G.Prev a b) x e)

section
variable (G : EventGraph ε δ) (chunk : Batch ε δ κ ℕ)

/-- An old forward extremity or a new event. -/
def Candidate (e : ε) : Prop := e ∈ G.forwardExtremities ∨ ∃ n ∈ newEvents chunk, n.eventId = e

/-- After the batch `a` has `b` as a prev event. -/
def PrevAfter (a b : ε) : Prop :=
  G.Prev a b ∨ G.events.lookup a = none ∧ ∃ ec ∈ chunk, ec.1.eventId = a ∧ b ∈ ec.1.prevEventIds

/-- After the batch the event is soft-failed or rejected. -/
def FailingAfter (a : ε) : Prop :=
  G.Failing a ∨ G.events.lookup a = none ∧
    ∃ ec ∈ chunk, ec.1.eventId = a ∧ (ec.1.softFailed = true ∨ ec.2.rejected = true)

/-- After the batch the event is accepted.  A stored event that is neither rejected nor soft-failed is if
it is no outlier, or the batch has it, not rejected and not as an outlier. -/
def AcceptedAfter (e : ε) : Prop :=
  (∃ row, G.events.lookup e = some row ∧ row.rejected = false ∧ row.event.softFailed = false ∧
    (row.outlier = false ∨
      ∃ ec ∈ chunk, ec.1.eventId = e ∧ ec.2.rejected = false ∧ ec.1.outlier = false)) ∨
  G.events.lookup e = none ∧ ∃ n ∈ newEvents chunk, n.eventId = e

/-- After the batch an accepted event reaches `e`. -/
def CoveredAfter (e : ε) : Prop := ∃ m x, AcceptedAfter G chunk m ∧ PrevAfter G chunk m x ∧
    ReflTransGen (fun a b => FailingAfter G chunk a ∧ PrevAfter G chunk a b) x e

end

section
variable [DecidableEq δ] [DecidableEq κ] (env : StateEnv ε δ κ) (db : RoomDb ε δ κ)
  (chunk : Batch ε δ κ ℕ) (newLatest : Finset ε)

/-- The state groups of some forward extremities. -/
def stateGroupsOf (events : Finset ε) : Finset ℕ :=
  events.biUnion fun e => (eventIdToStateGroup db chunk e).toFinset

/-- The state groups of the new forward extremities are other ones than before, and resolve to one of
them: this is when `_prune_extremities` is called. -/
structure ResolvesTo (group : ℕ) : Prop where
  changed : stateGroupsOf db chunk db.forwardExtremities ≠ stateGroupsOf db chunk newLatest
  several : (stateGroupsOf db chunk newLatest).card ≠ 1
  resolved : (resolveStateGroups env (stateGroupsOf db chunk newLatest)).stateGroup = some group
  nonzero : group ≠ 0
  mem : group ∈ stateGroupsOf db chunk newLatest

/-- `_prune_extremities` drops the event. -/
def PrunedBy (e : ε) : Prop := ∃ newLatest group kept,
    (∀ e', e' ∈ newLatest ↔ Candidate db.toEventGraph chunk e' ∧
      ¬ Noticed db.toEventGraph (newEvents chunk) e') ∧
    ResolvesTo env db chunk newLatest group ∧
    pruneExtremities env db.toEventGraph chunk (eventIdToStateGroup db chunk) newLatest group =
      .ok kept ∧ e ∈ newLatest ∧ e ∉ kept

/-- What a step must meet.  The last two fields are about events that are stored already and of which the
batch has a copy. -/
structure StepNoticed (env : StateEnv ε δ κ) (room : RoomRun ε δ κ)
    (chunk : Batch ε δ κ ℕ) : Prop where
  /-- Of the old forward extremities and the new events, what is covered is noticed or pruned. -/
  noticed : ∀ e, Candidate room.toEventGraph chunk e → CoveredAfter room.toEventGraph chunk e →
    Noticed room.toEventGraph (newEvents chunk) e ∨ PrunedBy env room.toRoomDb chunk e
  /-- What is noticed is covered, also if it is because of a copy that is accepted while the stored
  event is not. -/
  covered : ∀ e, Candidate room.toEventGraph chunk e → Noticed room.toEventGraph (newEvents chunk) e →
    AcceptedAfter room.toEventGraph chunk e → CoveredAfter room.toEventGraph chunk e ∨ e ∈ room.pruned
  /-- A stored outlier that a soft-failed copy makes an accepted event is covered. -/
  exOutlier : ∀ e, AcceptedAfter room.toEventGraph chunk e → room.toEventGraph.accepted e = false →
    ¬ Candidate room.toEventGraph chunk e → CoveredAfter room.toEventGraph chunk e ∨ e ∈ room.pruned

end

/-! ## A step -/

/-- The edges in the database are those of the events that are not rejected. -/
def EventGraph.EdgesOfRows (G : EventGraph ε δ) : Prop := ∀ a b, (a, b) ∈ G.eventEdges ↔
    ∃ row, G.events.lookup a = some row ∧ row.rejected = false ∧ b ∈ row.event.prevEventIds

section
variable {G G' : EventGraph ε δ} {chunk : Batch ε δ κ ℕ} {a b e : ε}

theorem EventGraph.accepted_iff : G.accepted e = true ↔ ∃ row, G.events.lookup e = some row ∧
    row.outlier = false ∧ row.rejected = false ∧ row.event.softFailed = false := by
  unfold EventGraph.accepted
  split
  next row hrow => simp [hrow, and_assoc]
  next hnone => simp [hnone]

theorem EventGraph.failed_iff : G.failed e = true ↔ ∃ row, G.events.lookup e = some row ∧
    row.outlier = false ∧ (row.event.softFailed = true ∨ row.rejected = true) := by
  unfold EventGraph.failed
  split
  next row hrow => simp [hrow]
  next hnone => simp [hnone]

theorem failedEdge_iff (hG : G.EdgesOfRows) : FailedEdge G a b ↔ G.SoftFailed a ∧ G.Prev a b := by
  unfold FailedEdge
  rw [EventGraph.failed_iff, hG a b]
  constructor
  · rintro ⟨⟨row, hrow, hout, hfail⟩, row', hrow', hrej, hb⟩
    obtain rfl := some.inj (hrow.symm.trans hrow')
    refine ⟨⟨row, hrow, hout, hrej, hfail.resolve_right ?_⟩, row, hrow, hb⟩
    exact Bool.eq_false_iff.mp hrej
  · rintro ⟨⟨row, hrow, hout, hrej, hsoft⟩, row', hrow', hb⟩
    obtain rfl := some.inj (hrow.symm.trans hrow')
    exact ⟨⟨row, hrow, hout, .inl hsoft⟩, row, hrow, hrej, hb⟩

/-- What the queries find is what can be noticed. -/
theorem superseded_iff_noticed (hG : G.EdgesOfRows) (new : List (Event ε δ)) :
    Superseded G new e ↔ Noticed G new e := by
  have hedge : FailedEdge G = fun a b => G.SoftFailed a ∧ G.Prev a b :=
    funext fun a => funext fun b => propext (failedEdge_iff hG)
  constructor
  · intro h
    cases h with
    | byNew n hn he => exact .byNew n hn he
    | byStored m hm he =>
      obtain ⟨row, hrow, _, hb⟩ := (hG m e).mp he
      exact .byStored m hm ⟨row, hrow, hb⟩
    | throughFailed n hn x hx he => exact .throughSoftFailed n hn x hx (hedge ▸ he)
  · intro h
    cases h with
    | byNew n hn he => exact .byNew n hn he
    | byStored m hm he =>
      obtain ⟨row, hrow, _, hrej, _⟩ := EventGraph.accepted_iff.mp hm
      obtain ⟨row', hrow', hb⟩ := he
      obtain rfl := some.inj (hrow.symm.trans hrow')
      exact .byStored m hm ((hG m e).mpr ⟨row, hrow, hrej, hb⟩)
    | throughSoftFailed n hn x hx he => exact .throughFailed n hn x hx (hedge ▸ he)

namespace Persisted
variable (h : Persisted G G' chunk)
include h

/-- The rows afterwards, apart from the column `outlier`: the old ones and those of the new events. -/
theorem exists_row {P : Event ε δ → Bool → Prop} :
    (∃ row', G'.events.lookup a = some row' ∧ P row'.event row'.rejected) ↔
      (∃ row, G.events.lookup a = some row ∧ P row.event row.rejected) ∨
        G.events.lookup a = none ∧ ∃ ec ∈ chunk, ec.1.eventId = a ∧ P ec.1 ec.2.rejected := by
  cases hlook : G.events.lookup a with
  | some row =>
    obtain ⟨row', hrow', hevent, hrej, _⟩ := h.stored hlook
    simp [hrow', hevent, hrej]
  | none =>
    constructor
    · rintro ⟨row', hrow', hP⟩
      obtain ⟨ec, hec, hid, rfl⟩ := (h.new hlook).mp hrow'
      exact .inr ⟨rfl, ec, hec, hid, hP⟩
    · rintro (⟨_, hcontra, _⟩ | ⟨_, ec, hec, hid, hP⟩)
      · exact nomatch hcontra
      · exact ⟨_, (h.new hlook).mpr ⟨ec, hec, hid, rfl⟩, hP⟩

/-- The edges stay those of the events that are not rejected. -/
theorem edgesOfRows (hG : G.EdgesOfRows) : G'.EdgesOfRows := by
  intro a b
  rw [h.edges, hG a b, h.exists_row (P := fun event rejected => rejected = false ∧ b ∈ event.prevEventIds)]
  refine or_congr_right ⟨?_, ?_⟩
  · rintro ⟨ec, hec, hid, hnone, hnew⟩
    exact ⟨hnone, ec, hec, hid, hnew⟩
  · rintro ⟨hnone, ec, hec, hid, hnew⟩
    exact ⟨ec, hec, hid, hnone, hnew⟩

theorem prev_iff : G'.Prev a b ↔ PrevAfter G chunk a b :=
  h.exists_row (P := fun event _ => b ∈ event.prevEventIds)

theorem failing_iff : G'.Failing a ↔ FailingAfter G chunk a :=
  h.exists_row (P := fun event rejected => event.softFailed = true ∨ rejected = true)

theorem accepted_iff : G'.accepted e = true ↔ AcceptedAfter G chunk e := by
  unfold AcceptedAfter
  rw [EventGraph.accepted_iff]
  cases hlook : G.events.lookup e with
  | some row =>
    obtain ⟨row', hrow', hevent, hrej, hout⟩ := h.stored hlook
    simp only [hrow', Option.some.injEq, exists_eq_left', hevent, hrej, hout, reduceCtorEq, false_and,
      or_false]
    tauto
  | none =>
    constructor
    · rintro ⟨row', hrow', hout, hrej, hsoft⟩
      obtain ⟨ec, hec, hid, rfl⟩ := (h.new hlook).mp hrow'
      exact .inr ⟨rfl, ec.1, mem_newEvents.mpr ⟨ec.2, hec, hout, hrej, hsoft⟩, hid⟩
    · rintro (⟨_, hcontra, _⟩ | ⟨_, n, hn, hid⟩)
      · exact nomatch hcontra
      · obtain ⟨ctx, hmem, hout, hrej, hsoft⟩ := mem_newEvents.mp hn
        exact ⟨_, (h.new hlook).mpr ⟨(n, ctx), hmem, hid, rfl⟩, hout, hrej, hsoft⟩

theorem covered_iff : G'.Covered e ↔ CoveredAfter G chunk e := by
  unfold EventGraph.Covered CoveredAfter
  simp only [h.accepted_iff, h.prev_iff, h.failing_iff]

end Persisted

/-- What is covered stays covered. -/
theorem EventGraph.Covered.after (h : G.Covered e) (chunk : Batch ε δ κ ℕ) :
    CoveredAfter G chunk e := by
  obtain ⟨m, x, hm, hmx, hxe⟩ := h
  obtain ⟨row, hrow, hout, hrej, hsoft⟩ := EventGraph.accepted_iff.mp hm
  exact ⟨m, x, .inl ⟨row, hrow, hrej, hsoft, .inl hout⟩, .inl hmx, ReflTransGen.mono (fun a b hab =>
      ⟨.inl hab.1, .inl hab.2⟩) _ _ hxe⟩

end

/-! ## The answer of the code -/

open EventGraph (accepted_iff failed_iff)

variable [DecidableEq δ] [DecidableEq κ]

section
variable {env : StateEnv ε δ κ} {db : RoomDb ε δ κ}
  {batch : Batch ε δ κ ℕ} {newLatest kept : Finset ε}
  {state deltaIds : Option (Dict κ ε)}

omit [DecidableEq κ] in
theorem pruneExtremities_subset {G : EventGraph ε δ} {group : ε → Option ℕ} {g : ℕ}
    (h : pruneExtremities env G batch group newLatest g = .ok kept) : kept ⊆ newLatest := by
  unfold pruneExtremities at h
  dsimp only at h
  split at h
  · obtain rfl := ok.inj h
    exact Subset.refl _
  · split at h
    · cases h
    · obtain ⟨all, _, h⟩ := bind_eq_ok.mp h
      split at h
      · obtain rfl := ok.inj h
        exact filter_subset _ _
      · obtain rfl := ok.inj h
        exact Subset.refl _

/-- The forward extremities that are kept of some. -/
inductive Kept (env : StateEnv ε δ κ) (db : RoomDb ε δ κ) (batch : Batch ε δ κ ℕ)
    (newLatest : Finset ε) : Finset ε → Prop
  | all (h : ∀ group, ¬ ResolvesTo env db batch newLatest group) : Kept env db batch newLatest newLatest
  | pruned {group kept} (h : ResolvesTo env db batch newLatest group)
      (hkept : pruneExtremities env db.toEventGraph batch (eventIdToStateGroup db batch) newLatest group =
        .ok kept) : Kept env db batch newLatest kept

theorem Kept.subset (h : Kept env db batch newLatest kept) : kept ⊆ newLatest := by
  cases h with
  | all _ => exact Subset.refl _
  | pruned _ hkept => exact pruneExtremities_subset hkept

/-- What is not kept has been dropped by `_prune_extremities`. -/
theorem Kept.notMem_iff (h : Kept env db batch newLatest kept) (e : ε) : e ∉ kept ∧ e ∈ newLatest ↔
    ∃ group kept', ResolvesTo env db batch newLatest group ∧ pruneExtremities env db.toEventGraph batch
      (eventIdToStateGroup db batch) newLatest group = .ok kept' ∧ e ∈ newLatest ∧ e ∉ kept' := by
  cases h with
  | all hno =>
    refine iff_of_false (fun hmem => hmem.1 hmem.2) ?_
    rintro ⟨group, _, hres, _⟩
    exact hno group hres
  | pruned hres hkept =>
    constructor
    · exact fun hmem => ⟨_, _, hres, hkept, hmem.2, hmem.1⟩
    · rintro ⟨group', kept', hres', hkept', hmem, hnot⟩
      obtain rfl := some.inj (hres.resolved.symm.trans hres'.resolved)
      obtain rfl := ok.inj (hkept.symm.trans hkept')
      exact ⟨hnot, hmem⟩

theorem resolveNewState_kept
    (hchanged : stateGroupsOf db batch db.forwardExtremities ≠ stateGroupsOf db batch newLatest)
    (hseveral : (stateGroupsOf db batch newLatest).card ≠ 1)
    (h : resolveNewState env db batch newLatest (stateGroupsOf db batch newLatest) =
      .ok (state, deltaIds, kept)) : Kept env db batch newLatest kept := by
  unfold resolveNewState at h
  dsimp only at h
  have hrest : ∀ {kept' : Finset ε}, ((resolveStateGroups env (stateGroupsOf db batch newLatest)).getState
      env >>= fun full => .ok (some full, none, kept')) = Except.ok (state, deltaIds, kept) →
        kept' = kept := by
    intro kept' h
    obtain ⟨full, _, h⟩ := bind_eq_ok.mp h
    exact (Prod.mk.inj (Prod.mk.inj (ok.inj h)).2).2
  split at h
  next group hgroup =>
    split at h
    next hmem =>
      obtain ⟨kept', hkept, h⟩ := bind_eq_ok.mp h
      exact hrest h ▸ .pruned ⟨hchanged, hseveral, hgroup, hmem.1, hmem.2⟩ hkept
    next hmem =>
      obtain rfl := hrest h
      refine .all fun group' hres => hmem ?_
      obtain rfl := some.inj (hgroup.symm.trans hres.resolved)
      exact ⟨hres.nonzero, hres.mem⟩
  next hnone =>
    obtain rfl := hrest h
    exact .all fun group' hres => absurd (hres.resolved.symm.trans hnone) (Option.some_ne_none _)

theorem getNewStateAfterEvents_kept
    (h : getNewStateAfterEvents env db batch newLatest = .ok (state, deltaIds, kept)) :
    Kept env db batch newLatest kept := by
  have hall : ∀ {s d : Option (Dict κ ε)}, Except.ok (s, d, newLatest) =
      (Except.ok (state, deltaIds, kept) : Except StateDeltaError _) →
        (∀ group, ¬ ResolvesTo env db batch newLatest group) → Kept env db batch newLatest kept := by
    intro s d h hno
    obtain rfl := (Prod.mk.inj (Prod.mk.inj (ok.inj h)).2).2
    exact .all hno
  have hone : ∀ {g}, (stateGroupsOf db batch newLatest).sort (· ≤ ·) = [g] →
      ∀ group, ¬ ResolvesTo env db batch newLatest group := by
    intro g hg group hres
    exact hres.several (by rw [singleton_of_sort hg, card_singleton])
  unfold getNewStateAfterEvents newStateOfGroups at h
  dsimp only at h
  split at h
  · cases h
  · split at h
    · cases h
    · split at h
      next heq => exact hall h fun group hres => hres.changed heq
      next hne =>
        split at h
        next hnew _ =>
          split at h
          · exact hall h (hone hnew)
          · exact hall h (hone hnew)
        next hnew _ => exact hall h (hone hnew)
        next hmany _ =>
          refine resolveNewState_kept hne (fun hcard => ?_) h
          rw [← length_sort (· ≤ ·), List.length_eq_one_iff] at hcard
          obtain ⟨g, hg⟩ := hcard
          exact hmany g hg

/-- The forward extremities that are returned are what is kept of those of
`_calculate_new_extremities`. -/
theorem calculate_ok {ext : Option (Finset ε)} {delta : Option (DeltaState ε κ)}
    (h : calculateNewForwardExtremitiesAndStateDelta env db batch = .ok (ext, delta)) :
    ext ≠ some ∅ ∧ ∃ newLatest, calculateNewExtremities db.toEventGraph batch = some newLatest ∧
      Kept env db batch newLatest (extremitiesAfter db ext) := by
  unfold calculateNewForwardExtremitiesAndStateDelta at h
  split at h
  · cases h
  next newLatest hcalc =>
    split at h
    next heq =>
      obtain ⟨rfl, _⟩ := Prod.mk.inj (ok.inj h)
      refine ⟨by simp, newLatest, hcalc, ?_⟩
      rw [show extremitiesAfter db none = newLatest from heq.symm]
      exact .all fun group hres => hres.changed (by rw [heq])
    · split at h
      · cases h
      next hne =>
        split at h
        next hsingle =>
          obtain ⟨rfl, _⟩ := Prod.mk.inj (ok.inj h)
          refine ⟨by simpa using hne, newLatest, hcalc, .all fun group hres => ?_⟩
          -- a single extremity has at most one state group
          obtain ⟨e, rfl⟩ := card_eq_one.mp hsingle.2.1
          have hmem := hres.mem
          have hseveral := hres.several
          unfold stateGroupsOf at hmem hseveral
          rw [singleton_biUnion] at hmem hseveral
          obtain hgroup := Option.mem_toFinset.mp hmem
          rw [hgroup] at hseveral
          exact hseveral rfl
        · obtain ⟨⟨state, deltaIds, kept⟩, hrun, h⟩ := bind_eq_ok.mp h
          dsimp only at h
          split at h
          · exact absurd h (by simp [throw, throwThe, MonadExceptOf.throw, bind, Except.bind])
          next hkept =>
            obtain ⟨rfl, _⟩ := Prod.mk.inj (ok.inj h)
            exact ⟨by simpa using hkept, newLatest, hcalc, getNewStateAfterEvents_kept hrun⟩

end

/-! ## Runs -/

def RoomRun.empty : RoomRun ε δ κ := ⟨⟨⟨∅, [], ∅⟩, ∅, ∅⟩, ∅⟩

/-- What `_persist_event_batch` does with a piece of a batch that is not backfilled. -/
def persistChunk (env : StateEnv ε δ κ) (room : RoomRun ε δ κ)
    (chunk : Batch ε δ κ ℕ) : Except StateDeltaError (RoomRun ε δ κ) := do
  let (ext, delta) ← calculateNewForwardExtremitiesAndStateDelta env room.toRoomDb chunk
  let db := room.toRoomDb.persistEventsTxn chunk delta ext
  let newLatest := (calculateNewExtremities room.toEventGraph chunk).getD ∅
  return ⟨db, room.pruned ∪ newLatest \ db.forwardExtremities⟩

/-- A piece of a batch, and what the code asks the rest of the server while persisting it. -/
abbrev Chunk (ε δ κ : Type) := StateEnv ε δ κ × Batch ε δ κ ℕ

variable (run : List (Chunk ε δ κ))

/-- Pieces persisted one after the other in a new room. -/
def persistChunks : Except StateDeltaError (RoomRun ε δ κ) :=
  run.foldlM (fun room chunk => persistChunk chunk.1 room chunk.2) RoomRun.empty

/-- A state that a run goes through. -/
def Reached (room : RoomRun ε δ κ) : Prop := ∃ part, part <+: run ∧ persistChunks part = .ok room

/-- A step that a run makes. -/
def Steps (room : RoomRun ε δ κ) (chunk : Chunk ε δ κ) (room' : RoomRun ε δ κ) : Prop :=
  ∃ part, part ++ [chunk] <+: run ∧ persistChunks part = .ok room ∧
    persistChunk chunk.1 room chunk.2 = .ok room'

section
variable {env : StateEnv ε δ κ} {room room' : RoomRun ε δ κ}
  {chunk : Batch ε δ κ ℕ}

theorem persistChunk_ok (h : persistChunk env room chunk = .ok room')
    (hdistinct : (chunk.map fun ec => ec.1.eventId).Nodup) :
    Persisted room.toEventGraph room'.toEventGraph chunk ∧ ∃ newLatest,
      calculateNewExtremities room.toEventGraph chunk = some newLatest ∧
      Kept env room.toRoomDb chunk newLatest room'.forwardExtremities ∧
      room'.pruned = room.pruned ∪ newLatest \ room'.forwardExtremities := by
  obtain ⟨⟨ext, delta⟩, hcalc, h⟩ := bind_eq_ok.mp h
  obtain rfl := ok.inj h
  obtain ⟨hext, newLatest, hnew, hkept⟩ := calculate_ok hcalc
  refine ⟨RoomDb.persistEventsTxn_persisted room.toRoomDb delta ext hdistinct, newLatest, hnew, ?_, ?_⟩
  · rw [← RoomDb.persistEventsTxn_forwardExtremities room.toRoomDb delta ext hext] at hkept
    exact hkept
  · rw [hnew]
    rfl

variable (hedges : room.toEventGraph.EdgesOfRows) (h : persistChunk env room chunk = .ok room')
  (hdistinct : (chunk.map fun ec => ec.1.eventId).Nodup)
include hedges h hdistinct

/-- What is kept and pruned, from the room before. -/
theorem persistChunk_extremities :
    (∀ e ∈ room'.forwardExtremities, Candidate room.toEventGraph chunk e ∧
      ¬ Noticed room.toEventGraph (newEvents chunk) e ∧ ¬ PrunedBy env room.toRoomDb chunk e) ∧
    (∀ e, Candidate room.toEventGraph chunk e → ¬ Noticed room.toEventGraph (newEvents chunk) e →
      e ∈ room'.forwardExtremities ∨ PrunedBy env room.toRoomDb chunk e ∧ e ∈ room'.pruned) ∧
    ∀ e, e ∈ room'.pruned → e ∈ room.pruned ∨ Candidate room.toEventGraph chunk e ∧
      ¬ Noticed room.toEventGraph (newEvents chunk) e := by
  obtain ⟨hpers, newLatest, hcalc, hkept, hpruned⟩ := persistChunk_ok h hdistinct
  obtain ⟨result, hresult, hmem⟩ := calculateNewExtremities_spec room.toEventGraph chunk
  obtain rfl := some.inj (hcalc.symm.trans hresult)
  simp only [superseded_iff_noticed hedges] at hmem
  -- pruned is what the calculation found and the room does not keep
  have hdropped : ∀ e, PrunedBy env room.toRoomDb chunk e ↔
      e ∉ room'.forwardExtremities ∧ e ∈ newLatest := by
    intro e
    rw [hkept.notMem_iff]
    constructor
    · rintro ⟨newLatest', group, kept, hmem', hrest⟩
      obtain rfl : newLatest' = newLatest := Finset.ext fun e' => (hmem' e').trans (hmem e').symm
      exact ⟨group, kept, hrest⟩
    · rintro ⟨group, kept, hrest⟩
      exact ⟨newLatest, group, kept, hmem, hrest⟩
  refine ⟨fun e he => ?_, fun e hcand hnot => ?_, fun e he => ?_⟩
  · obtain ⟨hcand, hnot⟩ := (hmem e).mp (hkept.subset he)
    exact ⟨hcand, hnot, fun hprun => ((hdropped e).mp hprun).1 he⟩
  · have hlatest := (hmem e).mpr ⟨hcand, hnot⟩
    by_cases he : e ∈ room'.forwardExtremities
    · exact .inl he
    · rw [hdropped, hpruned]
      exact .inr ⟨⟨he, hlatest⟩, mem_union_right _ (mem_sdiff.mpr ⟨hlatest, he⟩)⟩
  · rw [hpruned] at he
    rcases mem_union.mp he with hold | hnew
    · exact .inl hold
    · exact .inr ((hmem e).mp (mem_sdiff.mp hnew).1)

/-- A step from a room without dangling forward extremities leads to one without exactly if it meets the
condition. -/
theorem persistChunk_noDangling (hroom : NoDangling room) :
    NoDangling room' ↔ StepNoticed env room chunk := by
  obtain ⟨hext, hkept, hpruned⟩ := persistChunk_extremities hedges h hdistinct
  obtain ⟨hpers, newLatest, _, _, hpruned'⟩ := persistChunk_ok h hdistinct
  constructor
  · rintro ⟨hextremity, huncovered⟩
    simp only [hpers.covered_iff, hpers.accepted_iff] at hextremity huncovered
    -- an event that is accepted and not covered afterwards has been kept, now or before
    have hfound : ∀ e, AcceptedAfter room.toEventGraph chunk e →
        ¬ CoveredAfter room.toEventGraph chunk e → e ∈ room.pruned ∨
          Candidate room.toEventGraph chunk e ∧ ¬ Noticed room.toEventGraph (newEvents chunk) e := by
      intro e hacc hcov
      rcases huncovered e hacc hcov with he | he
      · exact .inr ⟨(hext e he).1, (hext e he).2.1⟩
      · exact hpruned e he
    refine ⟨fun e hcand hcov => ?_, fun e _ hnot hacc => ?_, fun e hacc _ hcand => ?_⟩
    · by_contra hneither
      rw [not_or] at hneither
      rcases hkept e hcand hneither.1 with he | he
      · exact hextremity e he hcov
      · exact hneither.2 he.1
    · by_contra hneither
      rw [not_or] at hneither
      exact (hfound e hacc hneither.1).elim hneither.2 fun hnew => hnew.2 hnot
    · by_contra hneither
      rw [not_or] at hneither
      exact (hfound e hacc hneither.1).elim hneither.2 fun hnew => hcand hnew.1
  · intro hstep
    have hpruned' : ∀ e ∈ room.pruned, e ∈ room'.pruned := fun e he => by
      rw [hpruned']
      exact mem_union_left _ he
    constructor
    · intro e he hcov
      obtain ⟨hcand, hnot, hnotPruned⟩ := hext e he
      exact (hstep.noticed e hcand (hpers.covered_iff.mp hcov)).elim hnot hnotPruned
    · intro e hacc hcov
      rw [hpers.accepted_iff] at hacc
      rw [hpers.covered_iff] at hcov
      -- nothing takes away an accepted event that is not covered
      have hstays : Candidate room.toEventGraph chunk e →
          e ∈ room'.forwardExtremities ∨ e ∈ room'.pruned := by
        intro hcand
        by_cases hnot : Noticed room.toEventGraph (newEvents chunk) e
        · exact .inr (hpruned' e ((hstep.covered e hcand hnot hacc).resolve_left hcov))
        · exact (hkept e hcand hnot).imp_right And.right
      by_cases hcand : Candidate room.toEventGraph chunk e
      · exact hstays hcand
      · cases hold : room.toEventGraph.accepted e with
        | true =>
          rcases hroom.uncovered e hold fun hc => hcov (hc.after chunk) with he | he
          · exact hstays (.inl he)
          · exact .inr (hpruned' e he)
        | false => exact .inr (hpruned' e ((hstep.exOutlier e hacc hold hcand).resolve_left hcov))

end

section
variable {run : List (Chunk ε δ κ)} {room room' : RoomRun ε δ κ} {chunk : Chunk ε δ κ}

theorem persistChunks_append (part : List (Chunk ε δ κ)) (chunk : Chunk ε δ κ) :
    persistChunks (part ++ [chunk]) =
      persistChunks part >>= fun room => persistChunk chunk.1 room chunk.2 := by
  unfold persistChunks
  simp

theorem Steps.reached (h : Steps run room chunk room') : Reached run room ∧ Reached run room' := by
  obtain ⟨part, hpart, hroom, hstep⟩ := h
  refine ⟨⟨part, (List.prefix_append _ _).trans hpart, hroom⟩, part ++ [chunk], hpart, ?_⟩
  rw [persistChunks_append, hroom]
  exact hstep

/-- What holds in the new room and is kept by every step holds in every state of a run. -/
theorem Reached.induction {P : RoomRun ε δ κ → Prop} (hempty : P RoomRun.empty)
    (hstep : ∀ room chunk room', Steps run room chunk room' → P room → P room')
    (h : Reached run room) : P room := by
  obtain ⟨part, hpart, hroom⟩ := h
  induction part using List.reverseRecOn generalizing room with
  | nil =>
    obtain rfl := ok.inj hroom
    exact hempty
  | append_singleton part chunk ih =>
    rw [persistChunks_append] at hroom
    obtain ⟨before, hbefore, hlast⟩ := bind_eq_ok.mp hroom
    refine hstep before chunk room ⟨part, hpart, hbefore, hlast⟩ (ih ?_ hbefore)
    exact (List.prefix_append _ _).trans hpart

omit [DecidableEq δ] [DecidableEq κ] in
theorem edgesOfRows_empty : (RoomRun.empty : RoomRun ε δ κ).toEventGraph.EdgesOfRows := fun _ _ => by
  simp [RoomRun.empty]

omit [DecidableEq δ] [DecidableEq κ] in
theorem noDangling_empty : NoDangling (RoomRun.empty : RoomRun ε δ κ) :=
  ⟨fun e he => absurd he (notMem_empty e), fun _ hacc => absurd hacc (by
    rw [accepted_iff]
    simp [RoomRun.empty])⟩

theorem Steps.mem (h : Steps run room chunk room') : chunk ∈ run := by
  obtain ⟨part, hpart, _⟩ := h
  exact hpart.subset (by simp)

end

/-! ## Events that come in order -/

/-- The events of a batch are new, accepted or soft-failed, and their prev events are stored. -/
structure InOrder (G : EventGraph ε δ) (chunk : Batch ε δ κ ℕ) : Prop where
  distinct : (chunk.map fun ec => ec.1.eventId).Nodup
  new : ∀ ec ∈ chunk, G.events.lookup ec.1.eventId = none
  plain : ∀ ec ∈ chunk, ec.2.rejected = false ∧ ec.1.outlier = false
  prevs : ∀ ec ∈ chunk, ∀ p ∈ ec.1.prevEventIds, p ∈ G.events

/-- What persisting events in order leads to. -/
def EventGraph.Filled (G : EventGraph ε δ) : Prop := ∀ e row, G.events.lookup e = some row →
    row.rejected = false ∧ row.outlier = false ∧ ∀ p ∈ row.event.prevEventIds, p ∈ G.events

section
variable {G G' : EventGraph ε δ} {chunk : Batch ε δ κ ℕ}

omit [DecidableEq δ] [DecidableEq κ]

/-- What is noticed is covered if the new events are really new. -/
theorem coveredAfter_of_noticed (hnew : ∀ ec ∈ chunk, G.events.lookup ec.1.eventId = none) {e : ε}
    (h : Noticed G (newEvents chunk) e) : CoveredAfter G chunk e := by
  have hacc : ∀ n ∈ newEvents chunk, AcceptedAfter G chunk n.eventId ∧
      ∀ b ∈ n.prevEventIds, PrevAfter G chunk n.eventId b := by
    intro n hn
    obtain ⟨ctx, hmem, _⟩ := mem_newEvents.mp hn
    have hnone := hnew _ hmem
    exact ⟨.inr ⟨hnone, n, hn, rfl⟩, fun b hb => .inr ⟨hnone, _, hmem, rfl, hb⟩⟩
  cases h with
  | byNew n hn he => exact ⟨n.eventId, e, (hacc n hn).1, (hacc n hn).2 e he, .refl⟩
  | byStored m hm he => exact EventGraph.Covered.after ⟨m, e, hm, he, .refl⟩ chunk
  | throughSoftFailed n hn x hx he =>
    have hstep : ∀ a b, G.SoftFailed a ∧ G.Prev a b → FailingAfter G chunk a ∧ PrevAfter G chunk a b := by
      rintro a b ⟨⟨row, hrow, _, _, hsoft⟩, hab⟩
      exact ⟨.inl ⟨row, hrow, .inl hsoft⟩, .inl hab⟩
    exact ⟨n.eventId, x, (hacc n hn).1, (hacc n hn).2 x hx, ReflTransGen.mono hstep _ _ he.to_reflTransGen⟩

variable (h : InOrder G chunk) (hG : G.Filled)
include h hG

theorem InOrder.filled (hpers : Persisted G G' chunk) : G'.Filled := by
  have hstored : ∀ p, p ∈ G.events → p ∈ G'.events := by
    intro p hp
    obtain ⟨row, hrow⟩ := Dict.exists_lookup hp
    obtain ⟨row', hrow', _⟩ := hpers.stored hrow
    exact Dict.mem_of_lookup hrow'
  intro e row' hrow'
  cases hlook : G.events.lookup e with
  | none =>
    obtain ⟨ec, hec, _, rfl⟩ := (hpers.new hlook).mp hrow'
    obtain ⟨hrej, hout⟩ := h.plain ec hec
    exact ⟨hrej, hout, fun p hp => hstored p (h.prevs ec hec p hp)⟩
  | some row =>
    obtain ⟨row₁, hrow₁, hevent, hrej, hout⟩ := hpers.stored hlook
    obtain rfl := some.inj (hrow'.symm.trans hrow₁)
    obtain ⟨hrej₀, hout₀, hprevs⟩ := hG e row hlook
    refine ⟨hrej.trans hrej₀, hout.mpr (.inl hout₀), fun p hp => hstored p (hprevs p ?_)⟩
    rwa [← hevent]

/-- The new edges all lead into the old graph, and out of new events. -/
theorem InOrder.prev_cases {a b : ε} (hprev : PrevAfter G chunk a b) :
    b ∈ G.events ∧ (a ∈ G.events → G.Prev a b) ∧
      ∀ n ∈ newEvents chunk, n.eventId = a → b ∈ n.prevEventIds := by
  rcases hprev with ⟨row, hrow, hb⟩ | ⟨hnone, ec, hec, hid, hb⟩
  · refine ⟨(hG a row hrow).2.2 b hb, fun _ => ⟨row, hrow, hb⟩, fun n hn hna => ?_⟩
    obtain ⟨ctx, hmem, _⟩ := mem_newEvents.mp hn
    exact absurd ((h.new _ hmem).symm.trans (hna ▸ hrow)) (by simp)
  · refine ⟨h.prevs ec hec b hb, fun ha => absurd ha (AList.lookup_eq_none.mp hnone), ?_⟩
    intro n hn hna
    obtain ⟨ctx, hmem, _⟩ := mem_newEvents.mp hn
    obtain rfl := List.inj_on_of_nodup_map h.distinct hmem hec (hna.trans hid.symm)
    exact hb

/-- A path through failing events that starts in the old graph was there before. -/
theorem InOrder.path_before {x e : ε} (hx : x ∈ G.events)
    (hpath : ReflTransGen (fun a b => FailingAfter G chunk a ∧ PrevAfter G chunk a b) x e) :
    e ∈ G.events ∧ ReflTransGen (fun a b => G.SoftFailed a ∧ G.Prev a b) x e := by
  induction hpath with
  | refl => exact ⟨hx, .refl⟩
  | @tail a b _ hab ih =>
    obtain ⟨ha, hpath⟩ := ih
    obtain ⟨hb, hprev, _⟩ := h.prev_cases hG hab.2
    refine ⟨hb, hpath.tail ⟨?_, hprev ha⟩⟩
    rcases hab.1 with ⟨row, hrow, hfail⟩ | ⟨hnone, _⟩
    · obtain ⟨hrej, hout, _⟩ := hG a row hrow
      rw [hrej] at hfail
      exact ⟨row, hrow, hout, hrej, hfail.resolve_right Bool.false_ne_true⟩
    · exact absurd ha (AList.lookup_eq_none.mp hnone)

end

/-- Events in order meet the condition. -/
theorem stepNoticed_of_inOrder {room : RoomRun ε δ κ} {chunk : Batch ε δ κ ℕ}
    (h : InOrder room.toEventGraph chunk) (hG : room.toEventGraph.Filled) (hroom : NoDangling room)
    (env : StateEnv ε δ κ) : StepNoticed env room chunk := by
  refine ⟨?_, fun e _ hnot _ => .inl (coveredAfter_of_noticed h.new hnot), ?_⟩
  · rintro e hcand ⟨m, x, hm, hmx, hpath⟩
    obtain ⟨hx, hold, hnew⟩ := h.prev_cases hG hmx
    obtain ⟨he, hpath⟩ := h.path_before hG hx hpath
    left
    rcases hm with ⟨row, hrow, hrej, hsoft, _⟩ | ⟨_, n, hn, rfl⟩
    · -- an old event covers only what it covered before
      have hcov : room.toEventGraph.Covered e := by
        refine ⟨m, x, accepted_iff.mpr ⟨row, hrow, (hG m row hrow).2.1, hrej, hsoft⟩,
          hold (Dict.mem_of_lookup hrow), ReflTransGen.mono ?_ _ _ hpath⟩
        rintro a b ⟨⟨row, hrow, _, _, hsoft⟩, hab⟩
        exact ⟨⟨row, hrow, .inl hsoft⟩, hab⟩
      rcases hcand with hext | ⟨n, hn, rfl⟩
      · exact absurd hcov (hroom.extremity e hext)
      · obtain ⟨ctx, hmem, _⟩ := mem_newEvents.mp hn
        exact absurd he (AList.lookup_eq_none.mp (h.new _ hmem))
    · rcases reflTransGen_iff_eq_or_transGen.mp hpath with rfl | hpath
      · exact .byNew n hn (hnew n hn rfl)
      · exact .throughSoftFailed n hn x (hnew n hn rfl) hpath
  · rintro e (⟨row, hrow, hrej, hsoft, _⟩ | ⟨_, hnew⟩) hold hcand
    · have hacc := accepted_iff.mpr ⟨row, hrow, (hG e row hrow).2.1, hrej, hsoft⟩
      exact absurd hacc (Bool.eq_false_iff.mp hold)
    · exact absurd (.inr hnew) hcand

/-- If the events of a run come in order no forward extremity dangles. -/
theorem persistChunks_noDangling_of_inOrder (run : List (Chunk ε δ κ))
    (horder : ∀ room chunk room', Steps run room chunk room' → InOrder room.toEventGraph chunk.2)
    {room : RoomRun ε δ κ} (h : Reached run room) : NoDangling room := by
  refine (h.induction (P := fun room => room.toEventGraph.EdgesOfRows ∧ NoDangling room ∧
    room.toEventGraph.Filled) ⟨edgesOfRows_empty, noDangling_empty,
      fun e row hrow => absurd hrow (by simp [RoomRun.empty])⟩ ?_).2.1
  rintro room chunk room' hsteps ⟨hedges, hno, hfilled⟩
  have hord := horder _ _ _ hsteps
  obtain ⟨_, _, _, hstep⟩ := hsteps
  have hpers := (persistChunk_ok hstep hord.distinct).1
  refine ⟨hpers.edgesOfRows hedges, ?_, hord.filled hfilled hpers⟩
  exact (persistChunk_noDangling hedges hstep hord.distinct hno).mpr
    (stepNoticed_of_inOrder hord hfilled hno chunk.1)

/-! ## A failing event in between

Event 1 is accepted, event 2 has it as a prev event and is soft-failed or rejected, and event 3 is
accepted and has event 2 as its prev event.  All have the same state. -/

/-- The server of that room. -/
def lineEnv : StateEnv ℕ Unit Unit where
  serverName := ()
  now := 0
  iterOrder := .insertion
  groupState _ := ∅
  resolve _ := ∅
  stateCache _ := none
  localMember _ := false
  isJoin _ := false
  localHostInRoomIgnoring _ := false

def lineChunk (e : ℕ) (softFailed rejected : Bool) : Chunk ℕ Unit Unit :=
  (lineEnv, [(⟨e, if e = 1 then [] else [e - 1], false, false, softFailed, (), false, e, 0, false⟩,
    ⟨some 1, some 1, rejected, ∅⟩)])

def softFailedRun : List (Chunk ℕ Unit Unit) :=
  [lineChunk 1 false false, lineChunk 2 true false, lineChunk 3 false false]

def rejectedRoomRun : List (Chunk ℕ Unit Unit) :=
  [lineChunk 1 false false, lineChunk 2 false true, lineChunk 3 false false]

/-- Every event of the run with the soft-failed event is new when it is persisted, and its prev events
are stored. -/
theorem softFailedRun_new : ∀ i < 3, ∀ chunk ∈ (softFailedRun.drop i).head?,
    (chunk.2.map fun ec => ec.1.eventId).Nodup ∧ (∀ ec ∈ chunk.2, ec.2.rejected = false ∧
      ec.1.outlier = false) ∧ (persistChunks (softFailedRun.take i)).toOption.all (fun room =>
        ∀ ec ∈ chunk.2, ec.1.eventId ∉ room.events ∧ ∀ p ∈ ec.1.prevEventIds, p ∈ room.events) = true := by
  decide +kernel

/-- Event 3 takes the place of event 1, which it reaches through the soft-failed event 2. -/
theorem noDangling_softFailedRun : ∃ room, Reached softFailedRun room ∧ room.forwardExtremities = {3} ∧
    NoDangling room := by
  have hend : (persistChunks softFailedRun).toOption.any (·.forwardExtremities = {3}) = true := by
    decide +kernel
  obtain ⟨room, hroom, hext⟩ := (any_eq_true _ _).mp hend
  have hreached : Reached softFailedRun room := ⟨_, List.prefix_rfl, eq_ok_of_toOption hroom⟩
  refine ⟨room, hreached, of_decide_eq_true hext, persistChunks_noDangling_of_inOrder _ ?_ hreached⟩
  rintro before chunk _ ⟨part, ⟨rest, hrest⟩, hbefore, _⟩
  rw [List.append_assoc] at hrest
  have hlen : part.length < 3 := by
    have := congrArg List.length hrest
    simp [softFailedRun] at this
    omega
  obtain ⟨hdistinct, hplain, hnew⟩ := softFailedRun_new part.length hlen chunk (by
    rw [← hrest, List.drop_left]
    rfl)
  rw [← hrest, List.take_left, hbefore] at hnew
  have hnew := of_decide_eq_true hnew
  exact ⟨hdistinct, fun ec hec => AList.lookup_eq_none.mpr (hnew ec hec).1, hplain,
    fun ec hec => (hnew ec hec).2⟩

end Synapse.Storage
