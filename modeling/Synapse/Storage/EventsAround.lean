import Synapse.Storage.RoomPages

/-!
# The events around an event

`_get_events_around_txn` asks for a page of the history before an event, and one after it.  Pages go from
a token, and a token comes after the event that it is made of: the page after the event starts from the
event's own token.  The page before it would include the event, so it starts from a token with the
topological ordering before the event's; but it keeps the event's stream ordering.

The page before has the events up to that token (`mem_before_iff`), the page after those above the event
(`mem_after_iff`).  So the two pages have nothing in common and do not have the event itself, but events
between the token and the event are on neither page: those with the same topological ordering and a lower
stream ordering, and those with the topological ordering before it and a higher stream ordering
(`getEventsAroundTxn_covers_iff`).
-/

namespace Synapse.Storage

open Synapse.Util Synapse.Types Synapse.StateGroups List

/-! ## The code -/

/-- The `StoreError`s of `simple_select_one_txn`. -/
inductive StoreError where
  /-- 404, `No row found`. -/
  | noRowFound
  /-- 500, `More than one row matched`. -/
  | moreThanOneRow
deriving DecidableEq

/-- What `_get_events_around_txn` returns. -/
structure EventsAround where
  before : List String
  beforeToken : RoomStreamToken
  after : List String
  afterToken : RoomStreamToken

namespace RoomEventTables

/-- `simple_select_one_txn` on `events`, by event ID and room ID. -/
def selectOneEvent (t : RoomEventTables) (roomId eventId : String) : Except StoreError RoomEventRow :=
  match t.events.filter fun e => e.eventId = eventId && e.roomId = roomId with
  | [] => .error .noRowFound
  | [e] => .ok e
  | _ => .error .moreThanOneRow

variable (t : RoomEventTables) (engine : DatabaseEngine)

/-- `_get_events_around_txn` without a filter. -/
def getEventsAroundTxn (roomId eventId : String) (beforeLimit afterLimit : ℕ) :
    Except StoreError EventsAround := do
  let e ← t.selectOneEvent roomId eventId
  let beforeToken := RoomStreamToken.historical (e.topologicalOrdering - 1) e.streamOrdering
  let afterToken := RoomStreamToken.historical e.topologicalOrdering e.streamOrdering
  let (rows, startToken) := t.paginateRoomEventsTxn engine roomId beforeToken none .backwards beforeLimit
  let eventsBefore := rows.map EventDictReturn.eventId
  let (rows, endToken) := t.paginateRoomEventsTxn engine roomId afterToken none .forwards afterLimit
  let eventsAfter := rows.map EventDictReturn.eventId
  pure ⟨eventsBefore, startToken, eventsAfter, endToken⟩

/-! ## The two pages -/

def eventsAround (e : RoomEventRow) (beforeLimit afterLimit : ℕ) : EventsAround :=
  let before := t.paginateRoomEventsTxn engine e.roomId
    (.historical (e.topologicalOrdering - 1) e.streamOrdering) none .backwards beforeLimit
  let after := t.paginateRoomEventsTxn engine e.roomId
    (.historical e.topologicalOrdering e.streamOrdering) none .forwards afterLimit
  ⟨before.1.map EventDictReturn.eventId, before.2, after.1.map EventDictReturn.eventId, after.2⟩

/-- The events before and after an event cover the whole room. -/
structure Covers (t : RoomEventTables) (e : RoomEventRow) (around : EventsAround) : Prop where
  disjoint : ∀ eventId ∈ around.before, eventId ∉ around.after
  notBefore : e.eventId ∉ around.before
  notAfter : e.eventId ∉ around.after
  all : ∀ e' ∈ t.roomEvents e.roomId, e'.eventId ≠ e.eventId →
    e'.eventId ∈ around.before ∨ e'.eventId ∈ around.after
  smaller : ∀ e' ∈ t.events, e'.eventId ∈ around.before → e'.historicalTuple < e.historicalTuple
  larger : ∀ e' ∈ t.events, e'.eventId ∈ around.after → e.historicalTuple < e'.historicalTuple

/-- The place of the token from which the page before an event starts. -/
def beforeTuple (e : RoomEventRow) : ℤ ×ₗ ℤ := toLex (e.topologicalOrdering - 1, e.streamOrdering)

theorem beforeTuple_lt (e : RoomEventRow) : beforeTuple e < e.historicalTuple :=
  Prod.Lex.toLex_lt_toLex.mpr (.inl (show e.topologicalOrdering - 1 < e.topologicalOrdering by omega))

variable {t : RoomEventTables} {e e' : RoomEventRow} {limit : ℕ}

variable (t)

theorem eq_of_eventId (he : e ∈ t.events) (he' : e' ∈ t.events) (h : e.eventId = e'.eventId) : e = e' :=
  inj_on_of_nodup_map t.nodupEventIds he he' h

theorem selectOneEvent_eq (he : e ∈ t.events) : t.selectOneEvent e.roomId e.eventId = .ok e := by
  have hfilter : (t.events.filter fun e' => e'.eventId = e.eventId && e'.roomId = e.roomId) = [e] := by
    have hnodup : t.events.Nodup := t.nodupEventIds.of_map _
    have heq : (t.events.filter fun e' => e'.eventId = e.eventId && e'.roomId = e.roomId) =
        t.events.filter fun e' => e' == e := by
      refine filter_congr fun e' he' => ?_
      rw [← Bool.decide_and, Bool.eq_iff_iff, decide_eq_true_iff, beq_iff_eq]
      refine ⟨fun h => t.eq_of_eventId he' he h.1, fun h => ?_⟩
      exact ⟨congrArg _ h, congrArg _ h⟩
    rw [heq, filter_beq, count_eq_one_of_mem hnodup he, replicate_one]
  unfold selectOneEvent
  rw [hfilter]

variable (engine : DatabaseEngine)

theorem getEventsAroundTxn_eq (beforeLimit afterLimit : ℕ) (he : e ∈ t.events) :
    t.getEventsAroundTxn engine e.roomId e.eventId beforeLimit afterLimit =
      .ok (t.eventsAround engine e beforeLimit afterLimit) := by
  unfold getEventsAroundTxn
  rw [t.selectOneEvent_eq he]
  rfl

/-- A page of the history from a place in it, if the limit is large enough. -/
theorem mem_paginate_iff (roomId : String) (topological stream : ℤ) (direction : Direction)
    (hlimit : (t.events.filter fun e => e.roomId = roomId).length ≤ limit) {eventId : String} :
    eventId ∈ (t.paginateRoomEventsTxn engine roomId (.historical topological stream) none direction
        limit).1.map EventDictReturn.eventId ↔
      ∃ e ∈ t.roomEvents roomId, e.eventId = eventId ∧
        paginationFilter (.historical topological stream) none direction e = true := by
  have hscalar : Scalar (.historical topological stream) := rfl
  rw [t.paginateRoomEventsTxn_of_scalar engine roomId direction limit hscalar
    fun _ h => absurd h (Option.not_mem_none _)]
  unfold paginationPage
  rw [take_of_length_le, map_map, mem_map]
  · constructor
    · intro h
      obtain ⟨e, he, rfl⟩ := h
      obtain ⟨hroom, hfilter⟩ := mem_filter.mp (mem_sortRows.mp he)
      exact ⟨e, hroom, rfl, hfilter⟩
    · intro h
      obtain ⟨e, hroom, rfl, hfilter⟩ := h
      exact ⟨e, mem_sortRows.mpr (mem_filter.mpr ⟨hroom, hfilter⟩), rfl⟩
  · -- the limit is at least the number of events in the room
    rw [(sortRows_perm _ _ _).length_eq]
    refine (length_filter_le _ _).trans (le_trans ?_ hlimit)
    unfold roomEvents
    rw [← filter_filter]
    exact (filter_sublist.filter _).length_le

section
variable (e : RoomEventRow) (hlimit : (t.events.filter fun e' => e'.roomId = e.roomId).length ≤ limit)
  {eventId : String}
include hlimit

/-- The page before an event has the events up to its token. -/
theorem mem_before_iff : eventId ∈ (t.paginateRoomEventsTxn engine e.roomId
        (.historical (e.topologicalOrdering - 1) e.streamOrdering) none .backwards limit).1.map
          EventDictReturn.eventId ↔
      ∃ e' ∈ t.roomEvents e.roomId, e'.eventId = eventId ∧ e'.historicalTuple ≤ beforeTuple e := by
  rw [t.mem_paginate_iff engine e.roomId _ _ .backwards hlimit]
  simp [paginationFilter, filterResults, RoomStreamToken.historical, beforeTuple]

/-- The page after an event has the events above it. -/
theorem mem_after_iff : eventId ∈ (t.paginateRoomEventsTxn engine e.roomId
        (.historical e.topologicalOrdering e.streamOrdering) none .forwards limit).1.map
          EventDictReturn.eventId ↔
      ∃ e' ∈ t.roomEvents e.roomId, e'.eventId = eventId ∧ e.historicalTuple < e'.historicalTuple := by
  rw [t.mem_paginate_iff engine e.roomId _ _ .forwards hlimit]
  simp [paginationFilter, filterResults, RoomStreamToken.historical, RoomEventRow.historicalTuple]

end

/-- **The events around an event cover the room** exactly if no event lies between the event and the token
from which the page before it starts. -/
theorem getEventsAroundTxn_covers_iff (e : RoomEventRow) (beforeLimit afterLimit : ℕ) (he : e ∈ t.events)
    (hbefore : (t.events.filter fun e' => e'.roomId = e.roomId).length ≤ beforeLimit)
    (hafter : (t.events.filter fun e' => e'.roomId = e.roomId).length ≤ afterLimit) :
    (∃ around, t.getEventsAroundTxn engine e.roomId e.eventId beforeLimit afterLimit = .ok around ∧
        t.Covers e around) ↔
      ∀ e' ∈ t.roomEvents e.roomId,
        ¬ (toLex (e.topologicalOrdering - 1, e.streamOrdering) < e'.historicalTuple ∧
          e'.historicalTuple < e.historicalTuple) := by
  have hmem : ∀ {e'}, e' ∈ t.roomEvents e.roomId → e' ∈ t.events := fun h => (mem_roomEvents.mp h).1
  have hlt := beforeTuple_lt e
  rw [t.getEventsAroundTxn_eq engine beforeLimit afterLimit he]
  constructor
  · intro h e' he' hbetween
    obtain ⟨around, hok, hcovers⟩ := h
    obtain rfl := Except.ok.inj hok
    have hne : e'.eventId ≠ e.eventId := by
      intro heq
      rw [t.eq_of_eventId (hmem he') he heq] at hbetween
      exact lt_irrefl _ hbetween.2
    rcases hcovers.all e' he' hne with hpage | hpage
    · obtain ⟨e'', he'', heq, hle⟩ := (t.mem_before_iff engine e hbefore).mp hpage
      rw [t.eq_of_eventId (hmem he'') (hmem he') heq] at hle
      exact absurd hbetween.1 (not_lt.mpr hle)
    · obtain ⟨e'', he'', heq, hgt⟩ := (t.mem_after_iff engine e hafter).mp hpage
      rw [t.eq_of_eventId (hmem he'') (hmem he') heq] at hgt
      exact absurd hbetween.2 (not_lt.mpr hgt.le)
  · intro hnone
    refine ⟨_, rfl, ?_, ?_, ?_, ?_, ?_, ?_⟩
    · intro eventId hpage hpage'
      obtain ⟨e', he', heq, hle⟩ := (t.mem_before_iff engine e hbefore).mp hpage
      obtain ⟨e'', he'', heq', hgt⟩ := (t.mem_after_iff engine e hafter).mp hpage'
      rw [t.eq_of_eventId (hmem he') (hmem he'') (heq.trans heq'.symm)] at hle
      exact absurd (lt_of_le_of_lt hle hlt) (not_lt.mpr hgt.le)
    · intro hpage
      obtain ⟨e', he', heq, hle⟩ := (t.mem_before_iff engine e hbefore).mp hpage
      rw [t.eq_of_eventId (hmem he') he heq] at hle
      exact absurd hlt (not_lt.mpr hle)
    · intro hpage
      obtain ⟨e', he', heq, hgt⟩ := (t.mem_after_iff engine e hafter).mp hpage
      rw [t.eq_of_eventId (hmem he') he heq] at hgt
      exact lt_irrefl _ hgt
    · -- the page before starts at its token, so an event above that one would be missed
      intro e' he' hne
      rcases lt_trichotomy e'.historicalTuple e.historicalTuple with hlt' | heq | hgt
      · left
        refine (t.mem_before_iff engine e hbefore).mpr ⟨e', he', rfl, ?_⟩
        exact not_lt.mp fun h => hnone e' he' ⟨h, hlt'⟩
      · refine absurd ?_ hne
        have hstream : e'.streamOrdering = e.streamOrdering := congrArg (fun x => (ofLex x).2) heq
        exact congrArg _ (inj_on_of_nodup_map t.nodupStreamOrderings (hmem he') he hstream)
      · exact .inr ((t.mem_after_iff engine e hafter).mpr ⟨e', he', rfl, hgt⟩)
    · intro e' he' hpage
      obtain ⟨e'', he'', heq, hle⟩ := (t.mem_before_iff engine e hbefore).mp hpage
      rw [t.eq_of_eventId (hmem he'') he' heq] at hle
      exact lt_of_le_of_lt hle hlt
    · intro e' he' hpage
      obtain ⟨e'', he'', heq, hgt⟩ := (t.mem_after_iff engine e hafter).mp hpage
      rw [t.eq_of_eventId (hmem he'') he' heq] at hgt
      exact hgt

variable {t}

/-! ## An event that is left out

A fork: two events have the same topological ordering. -/

/-- Three events, of which `$b` and `$c` have the same topological ordering. -/
def forkedRoom : RoomEventTables where
  events := [⟨"$a", "!room", none, 1, 1, false, true⟩, ⟨"$b", "!room", none, 2, 2, false, true⟩,
    ⟨"$c", "!room", none, 2, 3, false, true⟩]
  hasEntityChanged := fun _ _ => true
  nodupEventIds := by decide
  nodupStreamOrderings := by decide
  changed := fun _ _ _ _ => rfl

/-- Around `$c` there are no other events than `$a`; `$b` is on neither page, whatever the limits are. -/
theorem forkedRoom_notCovered : (forkedRoom.getEventsAroundTxn .postgres "!room" "$c" 3 3).map
        (fun around => (around.before, around.after)) = .ok (["$a"], []) ∧
      ¬∃ around, forkedRoom.getEventsAroundTxn .postgres "!room" "$c" 3 3 = .ok around ∧
        forkedRoom.Covers ⟨"$c", "!room", none, 2, 3, false, true⟩ around := by
  have heval : (forkedRoom.getEventsAroundTxn .postgres "!room" "$c" 3 3).map
      (fun around => (around.before, around.after)) = .ok (["$a"], []) := by decide +kernel
  refine ⟨heval, fun h => ?_⟩
  obtain ⟨around, hok, hcovers⟩ := h
  rw [hok] at heval
  obtain ⟨hbefore, hafter⟩ := Prod.mk.inj (Except.ok.inj heval)
  have hall := hcovers.all ⟨"$b", "!room", none, 2, 2, false, true⟩ (by decide +kernel) (by decide)
  rw [hbefore, hafter] at hall
  exact absurd hall (by decide)

/-- Around `$b` all events are found: `$a` before it, `$c` after it. -/
theorem forkedRoom_covered :
    ∃ around, forkedRoom.getEventsAroundTxn .sqlite "!room" "$b" 3 3 = .ok around ∧
      forkedRoom.Covers ⟨"$b", "!room", none, 2, 2, false, true⟩ around :=
  (forkedRoom.getEventsAroundTxn_covers_iff .sqlite ⟨"$b", "!room", none, 2, 2, false, true⟩ 3 3
    (by decide +kernel) (by decide +kernel) (by decide +kernel)).mpr (by decide +kernel)

end RoomEventTables
end Synapse.Storage
