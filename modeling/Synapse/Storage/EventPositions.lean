import Synapse.Storage.RoomPages

/-!
# Positions of the events of a room

`_set_before_and_after` gives events the positions of the rows that they were found by.  It walks the
events and the rows side by side, but `get_events_as_list` omits events, so behind an omitted event every
event gets the position of an earlier row.  The events have their own positions exactly if nothing is
omitted before an event that is returned (`ownPositions_iff`).

`get_last_event_in_room_before_stream_ordering` takes the first of some candidates that is not after a
token.  They come from a `UNION`, which has no order, and below the window of the writers there is only
one.  So the last event is found, whatever the order, only if there is one candidate at most that is not
after the token, and no such event below the candidate up to `stream`; `getLastEvent_iff` says when this is
so for the events of the room and the positions of their writers.
-/

namespace Synapse.Storage

open Synapse.Util Synapse.Types Synapse.StateGroups List
open RoomEventRow (eventId served streamOrdering)

/-- What `_set_before_and_after` sets. -/
structure InternalMetadata where
  before : RoomStreamToken
  after : RoomStreamToken
  order : ℤ × ℤ

/-- What is built from a row; a topological ordering 0 does not count. -/
def position (topoOrder : Bool) (row : RoomEventRow) : InternalMetadata :=
  if topoOrder && row.topologicalOrdering ≠ 0 then
    ⟨.historical row.topologicalOrdering (row.streamOrdering - 1),
      .historical row.topologicalOrdering row.streamOrdering,
      (row.topologicalOrdering, row.streamOrdering)⟩
  else ⟨.live ⟨row.streamOrdering - 1, ∅⟩, .live ⟨row.streamOrdering, ∅⟩, (0, row.streamOrdering)⟩

/-- `_set_before_and_after`; the events are given by their rows. -/
def setBeforeAndAfter (events rows : List RoomEventRow) (topoOrder : Bool) :
    List (RoomEventRow × InternalMetadata) :=
  (events.zip rows).map fun (event, row) => (event, position topoOrder row)

/-- The events of the rows that `get_events_as_list` does not omit, with their positions. -/
def positioned (rows : List RoomEventRow) (topoOrder : Bool) : List (RoomEventRow × InternalMetadata) :=
  setBeforeAndAfter (rows.filter served) rows topoOrder

namespace RoomEventTables
variable (t : RoomEventTables) (engine : DatabaseEngine) (roomId : String)

/-- `paginate_room_events`. -/
def paginateRoomEvents (fromKey : RoomStreamToken) (toKey : Option RoomStreamToken)
    (direction : Direction) (limit : ℕ) : List (RoomEventRow × InternalMetadata) × RoomStreamToken :=
  (positioned (t.paginationPageRows engine roomId fromKey toKey direction limit) true,
    (t.paginateRoomEventsTxn engine roomId fromKey toKey direction limit).2)

/-- The events of `get_room_events_stream_for_room`; it exits early only where there is nothing to select
(`getRoomEventsStreamForRoom_eq`). -/
def roomEventsStream (roomId : String) (fromKey toKey : RoomStreamToken) (limit : ℕ)
    (order : SortOrder) : List (RoomEventRow × InternalMetadata) :=
  let ret := positioned (t.streamPageRows roomId fromKey toKey limit order) false
  if order = .desc then ret.reverse else ret

variable (memberships : Dict String String) (changed : String → ℤ → Bool) (userId : String)
  (fromKey toKey : RoomStreamToken) (excludedRooms : List String)

/-- The rows of `get_membership_changes_for_user`; none where it does not ask.  `memberships` has the user
of a membership event, `changed` is `_membership_stream_cache.has_entity_changed`. -/
def membershipRead : List RoomEventRow :=
  if sameToken fromKey toKey || !changed userId fromKey.stream then []
  else (sortRows .asc streamOrdering (t.events.filter fun e =>
    memberships.lookup e.eventId = some userId && fromKey.stream < e.streamOrdering &&
      e.streamOrdering ≤ toKey.getMaxStreamPos && e.roomId ∉ excludedRooms)).filter
    (filterResults (some fromKey) (some toKey))

/-- `get_membership_changes_for_user`. -/
def getMembershipChangesForUser : List (RoomEventRow × InternalMetadata) :=
  positioned (t.membershipRead memberships changed userId fromKey toKey excludedRooms) false

/-- Every event has the position of its own row. -/
def OwnPositions (topoOrder : Bool) (ret : List (RoomEventRow × InternalMetadata)) : Prop :=
  ∀ p ∈ ret, p.2 = position topoOrder p.1

/-- No event is omitted before one that is returned. -/
def ServedFirst (rows : List RoomEventRow) : Prop := rows.filter served <+: rows

theorem forall_mem_zip_iff {α : Type} : ∀ {l l' : List α}, l.length ≤ l'.length →
    ((∀ p ∈ l.zip l', p.1 = p.2) ↔ l <+: l')
  | [], _, _ => by simp
  | _ :: _, [], h => absurd h (Nat.not_succ_le_zero _)
  | a :: l, b :: l', h => by
    rw [zip_cons_cons, forall_mem_cons, cons_prefix_cons, forall_mem_zip_iff (Nat.le_of_succ_le_succ h)]

theorem streamOrdering_eq_of_position {topoOrder : Bool} {row row' : RoomEventRow}
    (h : position topoOrder row = position topoOrder row') : row.streamOrdering = row'.streamOrdering := by
  have horder : ∀ row, (position topoOrder row).order.2 = row.streamOrdering := by
    intro row
    unfold position
    split <;> rfl
  rw [← horder row, ← horder row', h]

/-- Different rows give different positions, so the events must meet their rows. -/
theorem ownPositions_positioned {rows : List RoomEventRow}
    (hnodup : (rows.map streamOrdering).Nodup) (topoOrder : Bool) :
    OwnPositions topoOrder (positioned rows topoOrder) ↔ ServedFirst rows := by
  unfold OwnPositions positioned setBeforeAndAfter ServedFirst
  rw [← forall_mem_zip_iff (length_filter_le _ _), forall_mem_map]
  refine forall₂_congr fun p hp => ⟨fun h => ?_, fun h => h ▸ rfl⟩
  obtain ⟨hevent, hrow⟩ := of_mem_zip hp
  exact (inj_on_of_nodup_map hnodup hrow (mem_of_mem_filter hevent)
    (streamOrdering_eq_of_position h)).symm

theorem nodup_sortRows {κ : Type} [LinearOrder κ] (order : SortOrder) (key : RoomEventRow → κ)
    {rows page : List RoomEventRow} (hrows : rows.Sublist t.events)
    (hpage : page.Sublist (sortRows order key rows)) : (page.map streamOrdering).Nodup :=
  (((sortRows_perm order key rows).map _).nodup_iff.mpr (t.nodup_streamOrderings hrows)).sublist
    (hpage.map _)

theorem take_filter_take_sublist {α : Type} (l : List α) (p : α → Bool) (m n : ℕ) :
    (((l.take m).filter p).take n).Sublist l :=
  (take_sublist _ _).trans (filter_sublist.trans (take_sublist _ _))

/-- **Events carry their own positions** exactly if no event is omitted before one that is returned. -/
theorem ownPositions_iff (fromKey toKey : RoomStreamToken) (toToken : Option RoomStreamToken)
    (direction : Direction) (order : SortOrder) (limit : ℕ) (memberships : Dict String String)
    (changed : String → ℤ → Bool) (userId : String) (excludedRooms : List String) :
    (OwnPositions true (t.paginateRoomEvents engine roomId fromKey toToken direction limit).1 ↔
      ServedFirst (t.paginationPageRows engine roomId fromKey toToken direction limit)) ∧
    (OwnPositions false (t.roomEventsStream roomId fromKey toKey limit order) ↔
      ServedFirst (t.streamPageRows roomId fromKey toKey limit order)) ∧
    (OwnPositions false
        (t.getMembershipChangesForUser memberships changed userId fromKey toKey excludedRooms) ↔
      ServedFirst (t.membershipRead memberships changed userId fromKey toKey excludedRooms)) := by
  refine ⟨ownPositions_positioned ?_ true, ?_, ownPositions_positioned ?_ false⟩
  · exact t.nodup_sortRows _ _ (filter_sublist.trans (t.roomEvents_sublist roomId))
      (take_filter_take_sublist ..)
  · refine Iff.trans ?_ (ownPositions_positioned ?_ false)
    · unfold roomEventsStream OwnPositions
      split <;> simp only [mem_reverse]
    · exact t.nodup_sortRows _ _ (filter_sublist.trans (t.roomEvents_sublist roomId))
        (take_filter_take_sublist ..)
  · unfold membershipRead
    split
    · exact nodup_nil
    · exact t.nodup_sortRows _ _ filter_sublist filter_sublist

/-- Two events, of which the first has been rejected. -/
def rejectedFirst : RoomEventTables where
  events := [⟨"$a", "!room", none, 1, 1, false, false⟩, ⟨"$b", "!room", none, 2, 2, false, true⟩]
  hasEntityChanged := fun _ _ => true
  nodupEventIds := by decide
  nodupStreamOrderings := by decide
  changed := fun _ _ _ _ => rfl

/-- The second event has the position of the first. -/
theorem rejectedFirst_position :
    (rejectedFirst.paginateRoomEvents .postgres "!room" (.live ⟨0, ∅⟩) none .forwards 5).1.map
        (fun p => (p.1.eventId, p.1.streamOrdering, p.2.order, p.2.after.stream)) =
      [("$b", 2, (1, 1), 1)] := by
  decide +kernel

/-! ## The last event before a token -/

variable (rejections : List String) (roomId : String)

/-- The events of a room that are not outliers and have not been rejected. -/
def acceptedEvents : List RoomEventRow := (t.roomEvents roomId).filter fun e => e.eventId ∉ rejections

/-- The rows of both queries: all between the positions of the writers, and one below. -/
def lastEventRows (endToken : RoomStreamToken) : List RoomEventRow :=
  let events := t.acceptedEvents rejections roomId
  (sortRows .desc streamOrdering (events.filter fun e =>
      endToken.stream < e.streamOrdering && e.streamOrdering ≤ endToken.getMaxStreamPos) ++
    (sortRows .desc streamOrdering (events.filter fun e =>
      e.streamOrdering ≤ endToken.stream)).take 1).dedup

/-- `get_last_event_in_room_before_stream_ordering`, with the event by its row; `order` is the order of the
rows of the `UNION`. -/
def getLastEventInRoomBeforeStreamOrdering (rejections : List String)
    (order : RowOrder RoomEventRow) (roomId : String) (endToken : RoomStreamToken) : Option RoomEventRow :=
  (order.order (t.lastEventRows rejections roomId endToken)).find? (filterResults none (some endToken))

/-- The events that are not after a live token: each is compared with the position of its own writer. -/
def notAfter (token : MultiWriterStreamToken) : List RoomEventRow :=
  (t.acceptedEvents rejections roomId).filter fun e =>
    e.streamOrdering ≤ streamPosFor (.live token) e.instanceName

variable {t rejections roomId} {token : MultiWriterStreamToken} {e : RoomEventRow}

theorem mem_notAfter : e ∈ t.notAfter rejections roomId token ↔
    e ∈ t.acceptedEvents rejections roomId ∧
      e.streamOrdering ≤ streamPosFor (.live token) e.instanceName := by
  unfold notAfter
  rw [mem_filter, decide_eq_true_iff]

theorem nodup_acceptedEvents (t : RoomEventTables) (rejections : List String) (roomId : String) :
    ((t.acceptedEvents rejections roomId).map streamOrdering).Nodup :=
  t.nodup_streamOrderings (filter_sublist.trans (t.roomEvents_sublist roomId))

/-- No position beyond `stream` is greater than the maximum of the map. -/
theorem streamPosFor_le_max {instanceName : Option String}
    (h : token.stream < streamPosFor (.live token) instanceName) :
    streamPosFor (.live token) instanceName ≤ token.getMaxStreamPos := by
  cases instanceName with
  | none => exact absurd h (lt_irrefl _)
  | some name =>
    rw [show streamPosFor (.live token) (some name) = (token.instanceMap.lookup name).getD token.stream
      from rfl] at h ⊢
    cases hpos : token.instanceMap.lookup name with
    | none =>
      rw [hpos] at h
      exact absurd h (lt_irrefl _)
    | some pos =>
      have hmem : pos ∈ token.instanceMap.items.map Prod.snd :=
        mem_map.mpr ⟨(name, pos), Dict.mem_items.mpr hpos, rfl⟩
      unfold MultiWriterStreamToken.getMaxStreamPos
      obtain ⟨m, _, hmax, hle⟩ := exists_max? (ne_nil_of_mem hmem)
      rw [hmax]
      exact hle pos hmem

/-- The newest event up to `stream`. -/
def NewestUpTo (t : RoomEventTables) (rejections : List String) (roomId : String) (stream : ℤ)
    (e : RoomEventRow) : Prop :=
  e ∈ t.acceptedEvents rejections roomId ∧ e.streamOrdering ≤ stream ∧
    ∀ e' ∈ t.acceptedEvents rejections roomId, e'.streamOrdering ≤ stream →
      e'.streamOrdering ≤ e.streamOrdering

theorem exists_newestUpTo (t : RoomEventTables) {stream : ℤ} (he : e ∈ t.acceptedEvents rejections roomId)
    (hle : e.streamOrdering ≤ stream) : ∃ n, t.NewestUpTo rejections roomId stream n := by
  obtain ⟨n, hn, hmax⟩ := ((t.acceptedEvents rejections roomId).toFinset.filter fun e =>
    e.streamOrdering ≤ stream).exists_max_image streamOrdering
      ⟨e, Finset.mem_filter.mpr ⟨mem_toFinset.mpr he, hle⟩⟩
  rw [Finset.mem_filter, mem_toFinset] at hn
  exact ⟨n, hn.1, hn.2, fun e' he' hle' =>
    hmax e' (Finset.mem_filter.mpr ⟨mem_toFinset.mpr he', hle'⟩)⟩

theorem mem_acceptedEvents (he : e ∈ t.lastEventRows rejections roomId (.live token)) :
    e ∈ t.acceptedEvents rejections roomId := by
  rcases mem_append.mp (mem_dedup.mp he) with he | he
  · exact mem_of_mem_filter (mem_sortRows.mp he)
  · exact mem_of_mem_filter (mem_sortRows.mp (mem_of_mem_take he))

/-- The candidates among the events that are not after the token. -/
theorem mem_lastEventRows (he : e ∈ t.notAfter rejections roomId token) :
    e ∈ t.lastEventRows rejections roomId (.live token) ↔
      token.stream < e.streamOrdering ∨ t.NewestUpTo rejections roomId token.stream e := by
  obtain ⟨hmem, hpos⟩ := mem_notAfter.mp he
  unfold lastEventRows
  rw [mem_dedup, mem_append, mem_sortRows, mem_take_sortRows
    ((t.nodup_acceptedEvents rejections roomId).sublist (filter_sublist.map _))]
  refine or_congr ?_ ?_
  · -- the upper bound of the window excludes nothing that is not after its writer's position
    rw [mem_filter, Bool.and_eq_true, decide_eq_true_iff, decide_eq_true_iff]
    refine ⟨fun h => h.2.1, fun h => ⟨hmem, h, ?_⟩⟩
    exact hpos.trans (streamPosFor_le_max (h.trans_le hpos))
  · rw [Nat.lt_one_iff, countP_eq_zero, mem_filter, decide_eq_true_iff, and_assoc]
    refine and_congr_right fun _ => and_congr_right fun _ => ?_
    simp only [mem_filter, comesBefore, decide_eq_true_iff, not_lt, and_imp]
    rfl

variable (t rejections roomId token)

/-- What has to hold of the events of the room and the positions of their writers. -/
structure OneLast : Prop where
  /-- Of the events beyond `stream` one at most is not after the position of its writer. -/
  beyond : ∀ e ∈ t.notAfter rejections roomId token, ∀ e' ∈ t.notAfter rejections roomId token,
    token.stream < e.streamOrdering → token.stream < e'.streamOrdering → e = e'
  /-- If the newest event up to `stream` is not after the position of its writer, there is none beyond. -/
  newest : ∀ e ∈ t.notAfter rejections roomId token, t.NewestUpTo rejections roomId token.stream e →
    ∀ e' ∈ t.notAfter rejections roomId token, e'.streamOrdering ≤ token.stream
  /-- If it is after that position, but an older one is not, there is one beyond. -/
  older : ∀ e ∉ t.notAfter rejections roomId token, t.NewestUpTo rejections roomId token.stream e →
    t.notAfter rejections roomId token ≠ [] →
      ∃ e' ∈ t.notAfter rejections roomId token, token.stream < e'.streamOrdering

variable {t rejections roomId token}

/-- A candidate is the last one, if the candidates are one at most. -/
theorem OneLast.candidate_iff (h : t.OneLast rejections roomId token)
    (he : e ∈ t.notAfter rejections roomId token) :
    (token.stream < e.streamOrdering ∨ t.NewestUpTo rejections roomId token.stream e) ↔
      ∀ e' ∈ t.notAfter rejections roomId token, e'.streamOrdering ≤ e.streamOrdering := by
  constructor
  · rintro (hbeyond | hnewest) e' he'
    · by_cases hbeyond' : token.stream < e'.streamOrdering
      · rw [h.beyond e he e' he' hbeyond hbeyond']
      · omega
    · exact hnewest.2.2 e' (mem_notAfter.mp he').1 (h.newest e he hnewest e' he')
  · intro hlast
    by_cases hbeyond : token.stream < e.streamOrdering
    · exact .inl hbeyond
    · -- the newest event up to `stream` is this one, or it is after the position of its writer
      obtain ⟨n, hn⟩ := t.exists_newestUpTo (mem_notAfter.mp he).1 (not_lt.mp hbeyond)
      by_cases hafter : n ∈ t.notAfter rejections roomId token
      · refine .inr ⟨(mem_notAfter.mp he).1, not_lt.mp hbeyond, fun e' he' hle => ?_⟩
        exact (hn.2.2 e' he' hle).trans (hlast n hafter)
      · obtain ⟨e', he', hbeyond'⟩ := h.older n hafter hn (ne_nil_of_mem he)
        have := hlast e' he'
        omega

/-- **The last event is found, whatever the order of the rows**, exactly if of the events beyond `stream`
one at most is not after the position of its writer, and the newest event up to `stream` is not after its
own if there is no other, and only then. -/
theorem getLastEvent_iff (t : RoomEventTables) (rejections : List String) (roomId : String)
    (token : MultiWriterStreamToken) :
    (∀ order, IsGreatest streamOrdering (t.notAfter rejections roomId token)
        (t.getLastEventInRoomBeforeStreamOrdering rejections order roomId (.live token))) ↔
      t.OneLast rejections roomId token := by
  have hfilter : ∀ e ∈ t.acceptedEvents rejections roomId,
      filterResults none (some (.live token)) e = true ↔ e ∈ t.notAfter rejections roomId token := by
    intro e he
    rw [mem_notAfter, and_iff_right he]
    exact decide_eq_true_iff.trans not_lt
  refine (forall_find?_iff ((t.nodup_acceptedEvents rejections roomId).sublist (filter_sublist.map _))
    (fun e he => (hfilter e (mem_notAfter.mp he).1).mpr he)
    fun e he haccepted => (hfilter e (mem_acceptedEvents he)).mp haccepted).trans ?_
  constructor
  · intro h
    have hlast : ∀ e ∈ t.notAfter rejections roomId token,
        (token.stream < e.streamOrdering ∨ t.NewestUpTo rejections roomId token.stream e) →
          ∀ e' ∈ t.notAfter rejections roomId token, e'.streamOrdering ≤ e.streamOrdering :=
      fun e he hcand => (h e he).mp ((mem_lastEventRows he).mpr hcand)
    refine ⟨fun e he e' he' hbeyond hbeyond' => ?_, fun e he hnewest e' he' => ?_, fun n hafter hn hne => ?_⟩
    · exact inj_on_of_nodup_map (t.nodup_acceptedEvents rejections roomId) (mem_notAfter.mp he).1
        (mem_notAfter.mp he').1 (le_antisymm (hlast e' he' (.inl hbeyond') e he)
          (hlast e he (.inl hbeyond) e' he'))
    · exact (hlast e he (.inr hnewest) e' he').trans hnewest.2.1
    · -- the greatest of them is a candidate, and not the newest one up to `stream`
      obtain ⟨e, he, hmax⟩ := (t.notAfter rejections roomId token).toFinset.exists_max_image
        streamOrdering ((toFinset_nonempty_iff _).mpr hne)
      rw [mem_toFinset] at he
      have hcand := (mem_lastEventRows he).mp ((h e he).mpr fun e' he' => hmax e' (mem_toFinset.mpr he'))
      refine ⟨e, he, hcand.resolve_right fun hnewest => hafter ?_⟩
      have heq : n.streamOrdering = e.streamOrdering :=
        le_antisymm (hnewest.2.2 n hn.1 hn.2.1) (hn.2.2 e hnewest.1 hnewest.2.1)
      rwa [inj_on_of_nodup_map (t.nodup_acceptedEvents rejections roomId) hn.1 hnewest.1 heq]
  · intro h e he
    rw [mem_lastEventRows he]
    exact h.candidate_iff he

/-- No event of `twoWriters` is after the token, and the rows come in ascending order. -/
theorem twoWriters_notLast : (twoWriters.getLastEventInRoomBeforeStreamOrdering []
        ⟨orderBy streamOrdering, orderBy_perm⟩ "!room"
        (.live ⟨1, Dict.update (Dict.single "w1" 4) [("w2", 3)]⟩)).map eventId = some "$a" ∧
      (twoWriters.notAfter [] "!room" ⟨1, Dict.update (Dict.single "w1" 4) [("w2", 3)]⟩).map
        eventId = ["$a", "$b", "$c"] := by
  decide +kernel

end RoomEventTables
end Synapse.Storage
