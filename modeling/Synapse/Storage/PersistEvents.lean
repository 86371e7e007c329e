import Synapse.Storage.StateDelta

/-!
# Persisting a batch

`_persist_event_batch` takes the events of a room in pieces of at most 100.  For each it computes the
new forward extremities and the change of the current state, and `_persist_events_txn` writes the
tables.  An event that the database has already is not written again: if it was an outlier and is none
any more its row says so from then on, but the event as it was stored, and whether it was rejected,
stay.  A rejected event gets its row and no edges.

`Persisted` says what becomes of the rows of the events; it is all that is used of the transaction
elsewhere.
-/

namespace Synapse.Storage

open Synapse.Util List

variable {ε δ κ : Type} [DecidableEq ε] [DecidableEq δ] [DecidableEq κ]

/-! ## The code -/

/-- `_filter_events_and_contexts_for_duplicates`. -/
def filterEventsAndContextsForDuplicates (batch : Batch ε δ κ ℕ) :
    Batch ε δ κ ℕ :=
  batch.foldl (fun kept ec =>
    match kept.find? fun prev => prev.1.eventId = ec.1.eventId with
    | none => kept ++ [ec]
    | some prev =>
      if !ec.1.outlier && prev.1.outlier then
        kept.filter (fun prev => prev.1.eventId ≠ ec.1.eventId) ++ [ec]
      else kept) []

namespace RoomDb
variable (db : RoomDb ε δ κ) (batch : Batch ε δ κ ℕ)

/-- `_store_event_state_mappings_txn`. -/
def storeEventStateMappingsTxn : RoomDb ε δ κ :=
  { db with
    eventToStateGroups := db.eventToStateGroups.update (batch.filterMap fun ec =>
      if ec.1.outlier then none
      else (if ec.2.rejected then ec.2.stateGroupBeforeEvent else ec.2.stateGroup).map
        (ec.1.eventId, ·)) }

/-- The row of an event that the database has as an outlier and that is no outlier any more. -/
def exOutlier (db : RoomDb ε δ κ) (ec : Event ε δ × EventContext ε κ ℕ) : Option (StoredEvent ε δ) :=
  match db.events.lookup ec.1.eventId with
  | none => none
  | some row =>
    if ec.2.rejected then none
    else if !ec.1.outlier && row.outlier then some { row with outlier := false }
    else none

/-- `_update_outliers_txn`; gives back the events that the database does not have. -/
def updateOutliersTxn : RoomDb ε δ κ × Batch ε δ κ ℕ :=
  let db' := storeEventStateMappingsTxn db (batch.filter fun ec => (exOutlier db ec).isSome)
  ({ db' with
      events := db.events.update
        (batch.filterMap fun ec => (exOutlier db ec).map (ec.1.eventId, ·)) },
    batch.filter fun ec => ec.1.eventId ∉ db.events)

/-- `_store_event_txn`, with the rows that `_store_rejected_events_txn` adds to `rejections`. -/
def storeEventTxn : RoomDb ε δ κ :=
  { db with
    events := db.events.update
      (batch.map fun ec => (ec.1.eventId, ⟨ec.1, ec.1.outlier, ec.2.rejected⟩)) }

/-- `_update_forward_extremities_txn`, if there are new forward extremities. -/
def updateForwardExtremitiesTxn (db : RoomDb ε δ κ) (ext : Option (Finset ε)) : RoomDb ε δ κ :=
  match ext with
  | some ext => if ext = ∅ then db else { db with forwardExtremities := ext }
  | none => db

/-- `_handle_mult_prev_events`. -/
def handleMultPrevEvents (db : RoomDb ε δ κ) (events : List (Event ε δ)) : RoomDb ε δ κ :=
  { db with
    eventEdges := db.eventEdges ++ events.flatMap fun ev => ev.prevEventIds.map (ev.eventId, ·) }

/-- `_update_current_state_txn`, if the current state changes. -/
def updateCurrentStateTxn (db : RoomDb ε δ κ) (delta : Option (DeltaState ε κ)) : RoomDb ε δ κ :=
  match delta with
  | some delta =>
    { db with currentState := if delta.noLongerInRoom then ∅ else delta.apply db.currentState }
  | none => db

/-- `_persist_events_txn`. -/
def persistEventsTxn (delta : Option (DeltaState ε κ)) (ext : Option (Finset ε)) : RoomDb ε δ κ :=
  let (db, new) := updateOutliersTxn db (filterEventsAndContextsForDuplicates batch)
  let db := storeEventTxn db new
  let db := updateForwardExtremitiesTxn db ext
  let db := storeEventStateMappingsTxn db new
  let db := handleMultPrevEvents db ((new.filter fun ec => !ec.2.rejected).map Prod.fst)
  updateCurrentStateTxn db delta

end RoomDb

/-! ## What it does -/

omit [DecidableEq δ] [DecidableEq κ] in
/-- Events with different IDs are all kept. -/
theorem filterEventsAndContextsForDuplicates_eq {batch : Batch ε δ κ ℕ}
    (h : (batch.map fun ec => ec.1.eventId).Nodup) :
    filterEventsAndContextsForDuplicates batch = batch := by
  refine foldl_inv (I := fun done kept => kept = done) batch ?_ rfl
  rintro _ ec rest kept rfl rfl
  have hnone : (kept.find? fun prev => prev.1.eventId = ec.1.eventId) = none := by
    rw [find?_eq_none]
    intro prev hprev heq
    rw [map_append, map_cons, nodup_append] at h
    exact h.2.2 _ (mem_map_of_mem hprev) _ mem_cons_self (of_decide_eq_true heq)
  rw [hnone]

/-- What becomes of the rows of the events when a batch is persisted. -/
structure Persisted (G G' : EventGraph ε δ) (batch : Batch ε δ κ ℕ) : Prop where
  /-- A stored event stays; it is no outlier any more if the batch has it, not rejected and not as an
  outlier. -/
  stored : ∀ {e row}, G.events.lookup e = some row → ∃ row', G'.events.lookup e = some row' ∧
    row'.event = row.event ∧ row'.rejected = row.rejected ∧ (row'.outlier = false ↔ row.outlier = false ∨
      ∃ ec ∈ batch, ec.1.eventId = e ∧ ec.2.rejected = false ∧ ec.1.outlier = false)
  /-- An event that is not stored comes from the batch. -/
  new : ∀ {e row'}, G.events.lookup e = none → (G'.events.lookup e = some row' ↔
    ∃ ec ∈ batch, ec.1.eventId = e ∧ row' = ⟨ec.1, ec.1.outlier, ec.2.rejected⟩)
  /-- The new events that are not rejected get edges. -/
  edges : ∀ {a b}, (a, b) ∈ G'.eventEdges ↔ (a, b) ∈ G.eventEdges ∨ ∃ ec ∈ batch,
    ec.1.eventId = a ∧ G.events.lookup a = none ∧ ec.2.rejected = false ∧ b ∈ ec.1.prevEventIds

namespace RoomDb
variable {db : RoomDb ε δ κ} {batch : Batch ε δ κ ℕ} {row' : StoredEvent ε δ}

omit [DecidableEq δ]

omit [DecidableEq κ] in
theorem exOutlier_eq_some {ec : Event ε δ × EventContext ε κ ℕ} :
    exOutlier db ec = some row' ↔ ∃ row, db.events.lookup ec.1.eventId = some row ∧
      row.outlier = true ∧ ec.2.rejected = false ∧ ec.1.outlier = false ∧
      row' = { row with outlier := false } := by
  unfold exOutlier
  split
  next hnone => simp [hnone]
  next row hrow =>
    constructor
    · intro h
      obtain ⟨hrej, h⟩ := Option.ite_none_left_eq_some.mp h
      obtain ⟨hout, h⟩ := Option.ite_none_right_eq_some.mp h
      rw [Bool.and_eq_true, Bool.not_eq_true'] at hout
      exact ⟨row, hrow, hout.2, Bool.eq_false_iff.mpr hrej, hout.1, (Option.some.inj h).symm⟩
    · rintro ⟨row₀, hrow₀, hout, hrej, hnot, rfl⟩
      obtain rfl := Option.some.inj (hrow.symm.trans hrow₀)
      rw [hrej, hnot, hout]
      rfl

variable (db) (delta : Option (DeltaState ε κ)) (ext : Option (Finset ε)) (batch)

/-- The rows that `_update_outliers_txn` changes. -/
def exOutlierRows : List (ε × StoredEvent ε δ) :=
  batch.filterMap fun ec => (exOutlier db ec).map (ec.1.eventId, ·)

/-- The rows that `_store_event_txn` adds. -/
def newRows : List (ε × StoredEvent ε δ) :=
  (batch.filter fun ec => ec.1.eventId ∉ db.events).map fun ec =>
    (ec.1.eventId, ⟨ec.1, ec.1.outlier, ec.2.rejected⟩)

variable {batch} (h : (batch.map fun ec => ec.1.eventId).Nodup)
include h in
theorem persistEventsTxn_eq : (persistEventsTxn db batch delta ext).events =
        (db.events.update (exOutlierRows db batch)).update (newRows db batch) ∧
      (persistEventsTxn db batch delta ext).eventEdges = db.eventEdges ++
        (((batch.filter fun ec => ec.1.eventId ∉ db.events).filter fun ec => !ec.2.rejected).map
          Prod.fst).flatMap fun ev => ev.prevEventIds.map (ev.eventId, ·) := by
  unfold persistEventsTxn
  rw [filterEventsAndContextsForDuplicates_eq h]
  unfold updateCurrentStateTxn updateForwardExtremitiesTxn
  cases delta <;> cases ext <;> dsimp only <;> try split
  all_goals exact ⟨rfl, rfl⟩

variable {e : ε}

omit [DecidableEq κ] in
theorem mem_exOutlierRows : (e, row') ∈ exOutlierRows db batch ↔ ∃ ec ∈ batch, ec.1.eventId = e ∧
      ∃ row, db.events.lookup e = some row ∧ row.outlier = true ∧ ec.2.rejected = false ∧
        ec.1.outlier = false ∧ row' = { row with outlier := false } := by
  unfold exOutlierRows
  rw [mem_filterMap]
  constructor
  · rintro ⟨ec, hec, hmap⟩
    obtain ⟨row₀, hrow₀, heq⟩ := Option.map_eq_some_iff.mp hmap
    obtain ⟨rfl, rfl⟩ := Prod.mk.inj heq
    exact ⟨ec, hec, rfl, exOutlier_eq_some.mp hrow₀⟩
  · rintro ⟨ec, hec, rfl, hrow⟩
    exact ⟨ec, hec, Option.map_eq_some_iff.mpr ⟨row', exOutlier_eq_some.mpr hrow, rfl⟩⟩

omit [DecidableEq κ] in
theorem mem_newRows : (e, row') ∈ newRows db batch ↔ db.events.lookup e = none ∧
      ∃ ec ∈ batch, ec.1.eventId = e ∧ row' = ⟨ec.1, ec.1.outlier, ec.2.rejected⟩ := by
  unfold newRows
  rw [mem_map]
  constructor
  · rintro ⟨ec, hec, heq⟩
    obtain ⟨rfl, rfl⟩ := Prod.mk.inj heq
    obtain ⟨hmem, hnot⟩ := mem_filter.mp hec
    exact ⟨AList.lookup_eq_none.mpr (of_decide_eq_true hnot), ec, hmem, rfl, rfl⟩
  · rintro ⟨hnone, ec, hec, rfl, rfl⟩
    exact ⟨ec, mem_filter.mpr ⟨hec, decide_eq_true (AList.lookup_eq_none.mp hnone)⟩, rfl⟩

include h in
theorem lookup_persistEventsTxn :
    (persistEventsTxn db batch delta ext).events.lookup e = some row' ↔
      (e, row') ∈ newRows db batch ∨ (e, row') ∈ exOutlierRows db batch ∨
        e ∉ (exOutlierRows db batch).map Prod.fst ∧ db.events.lookup e = some row' := by
  have hnodup : ((newRows db batch).map Prod.fst).Nodup := by
    unfold newRows
    rw [map_map]
    exact h.sublist (filter_sublist.map _)
  have hnodup' : ((exOutlierRows db batch).map Prod.fst).Nodup := Dict.nodup_map_fst_filterMap h
  rw [(persistEventsTxn_eq db delta ext h).1, Dict.lookup_update hnodup, Dict.lookup_update hnodup']
  refine or_congr_right (and_iff_right_of_imp fun hstored hmem => ?_)
  -- a stored event has no new row
  obtain ⟨⟨e', row''⟩, hrow, rfl⟩ := mem_map.mp hmem
  have hnone := ((mem_newRows db).mp hrow).1
  rcases hstored with hex | ⟨_, hlook⟩
  · obtain ⟨_, _, _, row, hlook, _⟩ := (mem_exOutlierRows db).mp hex
    exact absurd (hnone.symm.trans hlook) (by simp)
  · exact absurd (hnone.symm.trans hlook) (by simp)

include h in
/-- **What `_persist_events_txn` does to the events.** -/
theorem persistEventsTxn_persisted :
    Persisted db.toEventGraph (persistEventsTxn db batch delta ext).toEventGraph batch := by
  refine ⟨fun {e row} hrow => ?_, fun {e row'} hnone => ?_, fun {a b} => ?_⟩
  · -- a stored outlier is one no longer if the batch has it as a full event
    by_cases hex : row.outlier = true ∧
      ∃ ec ∈ batch, ec.1.eventId = e ∧ ec.2.rejected = false ∧ ec.1.outlier = false
    · obtain ⟨hout, ec, hec, hid, hrej, hnot⟩ := hex
      refine ⟨{ row with outlier := false }, ?_, rfl, rfl, iff_of_true rfl ?_⟩
      · exact (lookup_persistEventsTxn db delta ext h).mpr (.inr (.inl
          ((mem_exOutlierRows db).mpr ⟨ec, hec, hid, row, hrow, hout, hrej, hnot, rfl⟩)))
      · exact .inr ⟨ec, hec, hid, hrej, hnot⟩
    · refine ⟨row, (lookup_persistEventsTxn db delta ext h).mpr (.inr (.inr ⟨?_, hrow⟩)), rfl, rfl,
        ⟨.inl, ?_⟩⟩
      · intro hmem
        obtain ⟨⟨e', row''⟩, hrow'', rfl⟩ := mem_map.mp hmem
        obtain ⟨ec, hec, hid, row₀, hrow₀, hout, hrej, hnot, _⟩ := (mem_exOutlierRows db).mp hrow''
        obtain rfl := Option.some.inj (hrow.symm.trans hrow₀)
        exact hex ⟨hout, ec, hec, hid, hrej, hnot⟩
      · rintro (hout | hec)
        · exact hout
        · exact Bool.eq_false_iff.mpr fun hout => hex ⟨hout, hec⟩
  · rw [lookup_persistEventsTxn db delta ext h, mem_newRows, mem_exOutlierRows]
    simp [hnone]
  · rw [(persistEventsTxn_eq db delta ext h).2, mem_append, mem_flatMap]
    refine or_congr_right ⟨?_, ?_⟩
    · rintro ⟨ev, hev, hb⟩
      obtain ⟨ec, hec, rfl⟩ := mem_map.mp hev
      obtain ⟨hec, hrej⟩ := mem_filter.mp hec
      obtain ⟨hec, hnot⟩ := mem_filter.mp hec
      obtain ⟨b', hb', heq⟩ := mem_map.mp hb
      obtain ⟨rfl, rfl⟩ := Prod.mk.inj heq
      exact ⟨ec, hec, rfl, AList.lookup_eq_none.mpr (of_decide_eq_true hnot),
        (Bool.not_eq_true' _).mp hrej, hb'⟩
    · rintro ⟨ec, hec, rfl, hnone, hrej, hb⟩
      refine ⟨ec.1, mem_map_of_mem (mem_filter.mpr ⟨mem_filter.mpr ⟨hec, ?_⟩, ?_⟩), mem_map_of_mem hb⟩
      · exact decide_eq_true (AList.lookup_eq_none.mp hnone)
      · exact (Bool.not_eq_true' _).mpr hrej

theorem persistEventsTxn_forwardExtremities (hext : ext ≠ some ∅) :
    (persistEventsTxn db batch delta ext).forwardExtremities = extremitiesAfter db ext := by
  unfold persistEventsTxn updateCurrentStateTxn updateForwardExtremitiesTxn
  cases ext with
  | none => cases delta <;> rfl
  | some ext =>
    dsimp only
    rw [if_neg fun hempty => hext (congrArg some hempty)]
    cases delta <;> rfl

end RoomDb
end Synapse.Storage
