import Mathlib.Data.Prod.Lex
import Synapse.StateGroups.Walks
import Synapse.Types.Tokens

/-!
# Pages of the events of a room

A page of the events of a room goes from one token to another.  A live token may have a position for
every writer, which a query cannot express.  So the queries select what lies between a lowest and a
highest position, twice as many rows as asked for, and `_filter_results` drops the rows that do not lie
between the tokens.

The page has the first events between the tokens exactly if the query has these events among the rows
that it fetches (`take_filter_take_eq_iff`).  For tokens without positions of writers all rows of the
query lie between the tokens (`fetched_of_accepted`), but otherwise there can be any number of rows
before them which are dropped, and a page may even be empty although there are events.
`get_room_events_stream_for_room` selects by stream ordering and does not expect tokens of the history;
with such a token there may be events between the tokens outside of what it selects.
-/

namespace Synapse.Storage

open Synapse.Util Synapse.Types Synapse.StateGroups List
open Option (all_some map_some)

/-! ## Events and tokens -/

/-- What the pages read of a row of `events`. -/
structure RoomEventRow where
  eventId : String
  roomId : String
  instanceName : Option String
  topologicalOrdering : ℤ
  streamOrdering : ℤ
  outlier : Bool
  /-- `get_events_as_list` gives the event: it has not been rejected, and if it redacts another event,
  that has been checked. -/
  served : Bool
deriving DecidableEq

/-- `event_historical_tuple`. -/
def RoomEventRow.historicalTuple (e : RoomEventRow) : ℤ ×ₗ ℤ :=
  toLex (e.topologicalOrdering, e.streamOrdering)

/-- The table `events`, and `_events_stream_cache.has_entity_changed`, which knows of all events. -/
structure RoomEventTables where
  events : List RoomEventRow
  hasEntityChanged : String → ℤ → Bool
  nodupEventIds : (events.map RoomEventRow.eventId).Nodup
  nodupStreamOrderings : (events.map RoomEventRow.streamOrdering).Nodup
  changed : ∀ e ∈ events, ∀ streamPos, streamPos < e.streamOrdering →
    hasEntityChanged e.roomId streamPos = true

inductive Direction where
  | forwards
  | backwards
deriving DecidableEq

variable (token : RoomStreamToken)

/-- `get_stream_pos_for_instance` of a live token; an old event has no writer. -/
def streamPosFor (instanceName : Option String) : ℤ :=
  instanceName.elim token.stream token.toMultiWriterStreamToken.getStreamPosForInstance

/-- `from_key == to_key`; two maps are equal if they have the same items. -/
def sameToken (token token' : RoomStreamToken) : Bool :=
  token.topological = token'.topological && token.stream = token'.stream &&
    decide (token.instanceMap.items.Perm token'.instanceMap.items)

variable (lowerToken upperToken : Option RoomStreamToken) (e : RoomEventRow)

/-- `_filter_results`. -/
def filterResults : Bool := (lowerToken.all fun token =>
      match token.topological with
      | some topological => ¬ e.historicalTuple ≤ toLex (topological, token.stream)
      | none => ¬ e.streamOrdering ≤ streamPosFor token e.instanceName) &&
    upperToken.all fun token =>
      match token.topological with
      | some topological => ¬ toLex (topological, token.stream) < e.historicalTuple
      | none => ¬ streamPosFor token e.instanceName < e.streamOrdering

/-! ## Bounds of a query -/

/-- The comparisons of a bound with a row. -/
inductive SqlBound where
  | lt
  | ge

def SqlBound.holds {κ : Type} [LinearOrder κ] : SqlBound → κ → κ → Bool
  | .lt, value, column => value < column
  | .ge, value, column => value ≥ column

/-- `bound[0]`. -/
def SqlBound.strict : SqlBound → ℤ → ℤ → Bool
  | .lt, value, column => value < column
  | .ge, value, column => value > column

/-- `_make_generic_sql_bound`: on SQLite the comparison of pairs is written out. -/
def makeGenericSqlBound (engine : DatabaseEngine) (bound : SqlBound) (values : Option ℤ × ℤ)
    (e : RoomEventRow) : Bool :=
  match values.1, engine with
  | none, _ => bound.holds values.2 e.streamOrdering
  | some topological, .postgres => bound.holds (toLex (topological, values.2)) e.historicalTuple
  | some topological, .sqlite => bound.strict topological e.topologicalOrdering ||
      (decide (topological = e.topologicalOrdering) && bound.holds values.2 e.streamOrdering)

/-- `generate_pagination_where_clause`. -/
def generatePaginationWhereClause (engine : DatabaseEngine) (direction : Direction)
    (fromToken toToken : Option (Option ℤ × ℤ)) (e : RoomEventRow) : Bool :=
  (fromToken.all fun values =>
      makeGenericSqlBound engine (if direction = .backwards then .ge else .lt) values e) &&
    toToken.all fun values =>
      makeGenericSqlBound engine (if direction = .backwards then .lt else .ge) values e

/-- A bound for a token: a place in the history, or a stream ordering. -/
def tokenBound (streamPos : ℤ) : Option ℤ × ℤ :=
  match token.topological with
  | some topological => (some topological, token.stream)
  | none => (none, streamPos)

/-- `generate_pagination_bounds`. -/
def generatePaginationBounds (direction : Direction) (fromToken toToken : Option RoomStreamToken) :
    SortOrder × Option (Option ℤ × ℤ) × Option (Option ℤ × ℤ) :=
  match direction with
  | .backwards => (.desc, fromToken.map fun token => tokenBound token token.getMaxStreamPos,
      toToken.map fun token => tokenBound token token.stream)
  | .forwards => (.asc, fromToken.map fun token => tokenBound token token.stream,
      toToken.map fun token => tokenBound token token.getMaxStreamPos)

/-- `generate_next_token`. -/
def generateNextToken (direction : Direction) (lastTopoOrdering lastStreamOrdering : ℤ) :
    RoomStreamToken :=
  match direction with
  | .backwards => .historical lastTopoOrdering (lastStreamOrdering - 1)
  | .forwards => .historical lastTopoOrdering lastStreamOrdering

/-! ## Pages -/

/-- `_EventDictReturn`. -/
structure EventDictReturn where
  eventId : String
  topologicalOrdering : Option ℤ
  streamOrdering : ℤ
deriving DecidableEq

namespace RoomEventTables

open RoomEventRow (eventId historicalTuple served streamOrdering)

variable (t : RoomEventTables) (roomId : String)

/-- The events of a room that are not outliers. -/
def roomEvents : List RoomEventRow := t.events.filter fun e => e.roomId = roomId && !e.outlier

/-- The rows that the query of `_paginate_room_events_txn` selects, without its limit. -/
def paginationRows (t : RoomEventTables) (engine : DatabaseEngine) (roomId : String)
    (fromToken : RoomStreamToken) (toToken : Option RoomStreamToken) (direction : Direction) :
    List RoomEventRow :=
  let (_, fromBound, toBound) := generatePaginationBounds direction (some fromToken) toToken
  (t.roomEvents roomId).filter (generatePaginationWhereClause engine direction fromBound toBound)

variable (fromToken : RoomStreamToken) (toToken : Option RoomStreamToken) (direction : Direction)

/-- `_filter_results` with the tokens in the order of the direction. -/
def paginationFilter : RoomEventRow → Bool :=
  filterResults (if direction = .backwards then toToken else some fromToken)
    (if direction = .backwards then some fromToken else toToken)

/-- `_paginate_room_events_txn` without a filter. -/
def paginateRoomEventsTxn (t : RoomEventTables) (engine : DatabaseEngine) (roomId : String)
    (fromToken : RoomStreamToken) (toToken : Option RoomStreamToken) (direction : Direction)
    (limit : ℕ) : List EventDictReturn × RoomStreamToken :=
  let (order, _, _) := generatePaginationBounds direction (some fromToken) toToken
  let fetched := (sortRows order historicalTuple
    (t.paginationRows engine roomId fromToken toToken direction)).take (limit * 2)
  let rows := (fetched.filter (paginationFilter fromToken toToken direction)).take limit
  let nextToken :=
    match rows.getLast? with
    | some last => generateNextToken direction last.topologicalOrdering last.streamOrdering
    | none => toToken.getD fromToken
  (rows.map fun e => ⟨e.eventId, some e.topologicalOrdering, e.streamOrdering⟩, nextToken)

/-- The rows that the query of `get_room_events_stream_for_room` selects, without its limit. -/
def streamRows (fromKey toKey : RoomStreamToken) : List RoomEventRow :=
  (t.roomEvents roomId).filter fun e =>
    fromKey.stream < e.streamOrdering && e.streamOrdering ≤ toKey.getMaxStreamPos

variable (fromKey toKey : RoomStreamToken) (limit : ℕ) (order : SortOrder)

/-- `get_room_events_stream_for_room`; the events that it returns, by their rows. -/
def getRoomEventsStreamForRoom : List RoomEventRow × RoomStreamToken :=
  if sameToken fromKey toKey then ([], fromKey)
  else if ¬ t.hasEntityChanged roomId fromKey.stream then ([], fromKey)
  else
    let fetched := (sortRows order streamOrdering (t.streamRows roomId fromKey toKey)).take
      (2 * limit)
    let rows := (fetched.filter (filterResults (some fromKey) (some toKey))).take limit
    let ret := rows.filter served
    let key :=
      match (rows.map streamOrdering).min? with
      | some stream => .live ⟨stream, ∅⟩
      | none => fromKey
    (if order = .desc then ret.reverse else ret, key)

/-! ## What the pages should have -/

/-- The events between the tokens, in the order of `get_room_events_stream_for_room`. -/
def streamPage : List RoomEventRow := (sortRows order streamOrdering
    ((t.roomEvents roomId).filter (filterResults (some fromKey) (some toKey)))).take limit

def directionOrder : Direction → SortOrder
  | .forwards => .asc
  | .backwards => .desc

/-- The events between the tokens, in the order of `_paginate_room_events_txn`. -/
def paginationPage (limit : ℕ) : List RoomEventRow := (sortRows (directionOrder direction) historicalTuple
    ((t.roomEvents roomId).filter (paginationFilter fromToken toToken direction))).take limit

/-- The query fetches the events of a page: each of them is among the rows that it selects, and fewer
rows come before it than are fetched. -/
def Fetched {κ : Type} [LinearOrder κ] (order : SortOrder) (key : RoomEventRow → κ)
    (rows page : List RoomEventRow) (limit : ℕ) : Prop :=
  ∀ e ∈ page, e ∈ rows ∧ (rows.countP fun row => comesBefore order key row e) < 2 * limit

variable {t : RoomEventTables} {engine : DatabaseEngine} {roomId : String}
  {fromToken : RoomStreamToken} {toToken : Option RoomStreamToken} {direction : Direction} {limit : ℕ}
  {rows : List RoomEventRow}

theorem nodup_streamOrderings (t : RoomEventTables) (hrows : rows.Sublist t.events) :
    (rows.map streamOrdering).Nodup := t.nodupStreamOrderings.sublist (hrows.map _)

theorem nodup_historicalTuples (t : RoomEventTables) (hrows : rows.Sublist t.events) :
    (rows.map historicalTuple).Nodup := by
  have hnodup := t.nodup_streamOrderings hrows
  have hmap : rows.map streamOrdering = (rows.map historicalTuple).map fun tuple => (ofLex tuple).2 := by
    rw [map_map]
    rfl
  rw [hmap] at hnodup
  exact hnodup.of_map _

theorem roomEvents_sublist (t : RoomEventTables) (roomId : String) :
    (t.roomEvents roomId).Sublist t.events := filter_sublist

theorem mem_roomEvents {e : RoomEventRow} :
    e ∈ t.roomEvents roomId ↔ e ∈ t.events ∧ e.roomId = roomId ∧ e.outlier = false := by
  unfold roomEvents
  rw [mem_filter, Bool.and_eq_true, decide_eq_true_iff, Bool.not_eq_true']

/-! ## `get_room_events_stream_for_room` -/

/-- Two equal tokens have the same position for every writer. -/
theorem streamPosFor_congr {token token' : RoomStreamToken} (h : sameToken token token' = true)
    (instanceName : Option String) : streamPosFor token instanceName = streamPosFor token' instanceName := by
  unfold sameToken at h
  rw [Bool.and_eq_true, Bool.and_eq_true, decide_eq_true_iff, decide_eq_true_iff, decide_eq_true_iff] at h
  obtain ⟨⟨_, hstream⟩, hitems⟩ := h
  cases instanceName with
  | none => exact hstream
  | some name =>
    have hlookup : token.instanceMap.lookup name = token'.instanceMap.lookup name :=
      Option.ext fun pos => by rw [← Dict.mem_items, ← Dict.mem_items, hitems.mem_iff]
    exact congrArg₂ Option.getD hlookup hstream

/-- No event lies between a token and itself. -/
theorem filterResults_sameToken {token token' : RoomStreamToken} (h : sameToken token token' = true)
    (e : RoomEventRow) : filterResults (some token) (some token') e = false := by
  have hpos := streamPosFor_congr h e.instanceName
  unfold sameToken at h
  rw [Bool.and_eq_true, Bool.and_eq_true, decide_eq_true_iff, decide_eq_true_iff] at h
  obtain ⟨⟨htopological, hstream⟩, _⟩ := h
  unfold filterResults
  dsimp only [all_some]
  rw [← htopological, ← hstream, ← hpos]
  cases token.topological with
  | some topological =>
    by_cases hle : e.historicalTuple ≤ toLex (topological, token.stream)
    · simp [hle]
    · simp [hle, not_le.mp hle]
  | none =>
    by_cases hle : e.streamOrdering ≤ streamPosFor token e.instanceName
    · simp [hle]
    · simp [hle, not_le.mp hle]

variable (t roomId)

/-- The rows of the page, also where the query is not asked. -/
def streamPageRows (fromKey toKey : RoomStreamToken) (limit : ℕ) (order : SortOrder) :
    List RoomEventRow :=
  (((sortRows order streamOrdering (t.streamRows roomId fromKey toKey)).take
    (2 * limit)).filter (filterResults (some fromKey) (some toKey))).take limit

variable (fromKey toKey : RoomStreamToken)

/-- The early exits are taken only if there is nothing to select. -/
theorem getRoomEventsStreamForRoom_eq (limit : ℕ)
    (order : SortOrder) : (t.getRoomEventsStreamForRoom roomId fromKey toKey limit order).1 =
      if order = .desc then
        ((t.streamPageRows roomId fromKey toKey limit order).filter served).reverse
      else (t.streamPageRows roomId fromKey toKey limit order).filter served := by
  have hnone : t.streamPageRows roomId fromKey toKey limit order = [] → (if order = .desc then
        ((t.streamPageRows roomId fromKey toKey limit order).filter served).reverse
      else (t.streamPageRows roomId fromKey toKey limit order).filter served) = [] := by
    intro h
    rw [h, filter_nil, reverse_nil, ite_self]
  unfold getRoomEventsStreamForRoom
  split
  next hsame =>
    refine (hnone ?_).symm
    unfold streamPageRows
    rw [filter_eq_nil_iff.mpr fun e _ => by simp [filterResults_sameToken hsame e], take_nil]
  · split
    next hunchanged =>
      -- the cache knows of all events
      have hrows : t.streamRows roomId fromKey toKey = [] := by
        refine filter_eq_nil_iff.mpr fun e he => ?_
        obtain ⟨hmem, rfl, _⟩ := mem_roomEvents.mp he
        rw [Bool.and_eq_true, decide_eq_true_iff]
        exact fun h => hunchanged (t.changed e hmem fromKey.stream h.1)
      refine (hnone ?_).symm
      have hsort : sortRows order streamOrdering (t.streamRows roomId fromKey toKey) = [] := by
        rw [hrows]
        exact (sortRows_perm order _ []).eq_nil
      unfold streamPageRows
      rw [hsort, take_nil, filter_nil, take_nil]
    · rfl

/-- **The stream page** has the first events between the tokens exactly if they are fetched and
served. -/
theorem getRoomEventsStreamForRoom_iff (limit : ℕ)
    (order : SortOrder) : (t.getRoomEventsStreamForRoom roomId fromKey toKey limit order).1 =
        (if order = .desc then (t.streamPage roomId fromKey toKey limit order).reverse
        else t.streamPage roomId fromKey toKey limit order) ↔
      Fetched order streamOrdering (t.streamRows roomId fromKey toKey)
          (t.streamPage roomId fromKey toKey limit order) limit ∧
        ∀ e ∈ t.streamPage roomId fromKey toKey limit order, e.served = true := by
  have hrows := t.nodup_streamOrderings
    ((filter_sublist (p := fun e => fromKey.stream < e.streamOrdering &&
      e.streamOrdering ≤ toKey.getMaxStreamPos)).trans (t.roomEvents_sublist roomId))
  have hwanted := t.nodup_streamOrderings
    ((filter_sublist (p := filterResults (some fromKey) (some toKey))).trans
      (t.roomEvents_sublist roomId))
  have hpage : t.streamPageRows roomId fromKey toKey limit order =
        t.streamPage roomId fromKey toKey limit order ↔
      Fetched order streamOrdering (t.streamRows roomId fromKey toKey)
        (t.streamPage roomId fromKey toKey limit order) limit := by
    refine (take_filter_take_sortRows order hrows hwanted (fun e he => (mem_filter.mp he).2) ?_).trans
      (forall₂_congr fun e _ => mem_take_sortRows hrows)
    exact fun e he haccept => mem_filter.mpr ⟨(mem_filter.mp he).1, haccept⟩
  have hreverse : ∀ rows page : List RoomEventRow,
      (if order = .desc then rows.reverse else rows) = (if order = .desc then page.reverse else page) ↔
        rows = page := by
    intro rows page
    split
    · exact reverse_inj
    · exact Iff.rfl
  rw [getRoomEventsStreamForRoom_eq, hreverse]
  constructor
  · intro heq
    -- all events of the page have passed the limit of the query
    have hfetched : Fetched order streamOrdering (t.streamRows roomId fromKey toKey)
        (t.streamPage roomId fromKey toKey limit order) limit := by
      intro e he
      rw [← heq] at he
      have htake := mem_of_mem_take (mem_filter.mp he).1
      exact (mem_take_sortRows hrows).mp (mem_filter.mp htake).1
    rw [hpage.mpr hfetched] at heq
    exact ⟨hfetched, filter_eq_self.mp heq⟩
  · intro h
    rw [hpage.mpr h.1]
    exact filter_eq_self.mpr h.2

variable {t roomId}

/-! ## `_paginate_room_events_txn` -/

variable (t engine roomId fromToken toToken direction limit)

def paginationPageRows : List RoomEventRow := (((sortRows (directionOrder direction) historicalTuple
    (t.paginationRows engine roomId fromToken toToken direction)).take (2 * limit)).filter
      (paginationFilter fromToken toToken direction)).take limit

/-- `_EventDictReturn(event_id, topological_ordering, stream_ordering)`. -/
def dictReturn (e : RoomEventRow) : EventDictReturn :=
  ⟨e.eventId, some e.topologicalOrdering, e.streamOrdering⟩

theorem paginateRoomEventsTxn_eq :
    (t.paginateRoomEventsTxn engine roomId fromToken toToken direction limit).1 =
      (t.paginationPageRows engine roomId fromToken toToken direction limit).map dictReturn := by
  unfold paginateRoomEventsTxn paginationPageRows generatePaginationBounds
  rw [Nat.mul_comm 2 limit]
  cases direction with
  | forwards => rfl
  | backwards => rfl

theorem map_dictReturn_inj {rows rows' : List RoomEventRow} (hrows : rows ⊆ t.events)
    (hrows' : rows' ⊆ t.events) (h : rows.map dictReturn = rows'.map dictReturn) : rows = rows' := by
  have hfind : ∀ {rows : List RoomEventRow}, rows ⊆ t.events →
      (rows.map dictReturn).map (fun ret => t.events.find? fun e => e.eventId = ret.eventId) =
        rows.map some := by
    intro rows hrows
    rw [map_map]
    exact map_congr_left fun e he => find?_of_nodup t.nodupEventIds (hrows he)
  have hsome := congrArg (List.map fun ret => t.events.find? fun e => e.eventId = ret.eventId) h
  rw [hfind hrows, hfind hrows'] at hsome
  exact map_injective_iff.mpr (Option.some_injective _) hsome

theorem paginationRows_subset :
    (t.paginationRows engine roomId fromToken toToken direction).Sublist (t.roomEvents roomId) :=
  filter_sublist

/-- **The page of the history** has the first events between the tokens exactly if they are fetched. -/
theorem paginateRoomEventsTxn_iff :
    (t.paginateRoomEventsTxn engine roomId fromToken toToken direction limit).1 =
        (t.paginationPage roomId fromToken toToken direction limit).map dictReturn ↔
      Fetched (directionOrder direction) historicalTuple
        (t.paginationRows engine roomId fromToken toToken direction)
        (t.paginationPage roomId fromToken toToken direction limit) limit := by
  have hsub := t.paginationRows_subset engine roomId fromToken toToken direction
  have hrows := t.nodup_historicalTuples (hsub.trans (t.roomEvents_sublist roomId))
  have hwanted := t.nodup_historicalTuples
    ((filter_sublist (p := paginationFilter fromToken toToken direction)).trans
      (t.roomEvents_sublist roomId))
  have hpage : t.paginationPageRows engine roomId fromToken toToken direction limit =
        t.paginationPage roomId fromToken toToken direction limit ↔
      Fetched (directionOrder direction) historicalTuple
        (t.paginationRows engine roomId fromToken toToken direction)
        (t.paginationPage roomId fromToken toToken direction limit) limit := by
    refine (take_filter_take_sortRows _ hrows hwanted (fun e he => (mem_filter.mp he).2) ?_).trans
      (forall₂_congr fun e _ => mem_take_sortRows hrows)
    exact fun e he haccept => mem_filter.mpr ⟨hsub.subset he, haccept⟩
  rw [paginateRoomEventsTxn_eq, ← hpage]
  refine ⟨fun heq => t.map_dictReturn_inj (fun e he => ?_) (fun e he => ?_) heq, congrArg _⟩
  · have htake := (mem_filter.mp (mem_of_mem_take he)).1
    have hrow := hsub.subset (mem_sortRows.mp (mem_of_mem_take htake))
    exact (mem_roomEvents.mp hrow).1
  · have hrow := mem_sortRows.mp (mem_of_mem_take he)
    exact (mem_roomEvents.mp (mem_filter.mp hrow).1).1

/-! ## Tokens without positions of writers -/

theorem makeGenericSqlBound_engine (bound : SqlBound) (values : Option ℤ × ℤ) (e : RoomEventRow) :
    makeGenericSqlBound engine bound values e = makeGenericSqlBound .postgres bound values e := by
  obtain ⟨_ | topological, stream⟩ := values
  · rfl
  · cases engine with
    | postgres => rfl
    | sqlite =>
      unfold makeGenericSqlBound historicalTuple
      rw [Bool.eq_iff_iff, Bool.or_eq_true, Bool.and_eq_true, decide_eq_true_iff]
      cases bound with
      | lt =>
        unfold SqlBound.strict SqlBound.holds
        rw [decide_eq_true_iff, decide_eq_true_iff, decide_eq_true_iff, Prod.Lex.toLex_lt_toLex]
      | ge =>
        unfold SqlBound.strict SqlBound.holds
        rw [decide_eq_true_iff, decide_eq_true_iff, decide_eq_true_iff, ge_iff_le, ge_iff_le,
          Prod.Lex.toLex_le_toLex]
        simp only [gt_iff_lt, eq_comm]

variable {t engine roomId fromToken toToken direction limit}

/-- A token without positions of writers. -/
def Scalar : Prop := token.instanceMap.items = []

variable {token : RoomStreamToken}

theorem streamPosFor_of_scalar (h : Scalar token) (instanceName : Option String) :
    streamPosFor token instanceName = token.stream := by
  cases instanceName with
  | none => rfl
  | some name => exact Dict.getD_of_items_eq_nil h _

theorem getMaxStreamPos_of_scalar (h : Scalar token) : token.getMaxStreamPos = token.stream := by
  unfold MultiWriterStreamToken.getMaxStreamPos
  rw [h]
  rfl

/-- The bounds for the lower and the upper token are what the filter asks. -/
theorem makeGenericSqlBound_of_scalar (h : Scalar token) (e : RoomEventRow) :
    makeGenericSqlBound engine .lt (tokenBound token token.stream) e = filterResults (some token) none e ∧
      makeGenericSqlBound engine .ge (tokenBound token token.stream) e =
        filterResults none (some token) e := by
  rw [makeGenericSqlBound_engine engine .lt, makeGenericSqlBound_engine engine .ge]
  unfold filterResults tokenBound makeGenericSqlBound
  dsimp only [all_some, Option.all_none]
  rw [streamPosFor_of_scalar h]
  cases token.topological with
  | some topological => simp [SqlBound.holds]
  | none => simp [SqlBound.holds]

theorem filterResults_and : filterResults lowerToken upperToken e =
      (filterResults lowerToken none e && filterResults none upperToken e) := by
  unfold filterResults
  simp

variable (t engine roomId direction)

/-- For tokens without positions of writers the query selects what lies between them. -/
theorem paginationRows_of_scalar (hfrom : Scalar fromToken) (hto : ∀ token ∈ toToken, Scalar token) :
    t.paginationRows engine roomId fromToken toToken direction =
      (t.roomEvents roomId).filter (paginationFilter fromToken toToken direction) := by
  refine filter_congr fun e _ => ?_
  unfold generatePaginationWhereClause paginationFilter
  cases direction with
  | forwards =>
    simp only [reduceCtorEq, if_false, map_some, all_some]
    rw [filterResults_and, (makeGenericSqlBound_of_scalar hfrom _).1]
    cases toToken with
    | none => rfl
    | some token =>
      rw [map_some, all_some, getMaxStreamPos_of_scalar (hto token rfl),
        (makeGenericSqlBound_of_scalar (hto token rfl) _).2]
  | backwards =>
    simp only [if_true, map_some, all_some]
    rw [filterResults_and, getMaxStreamPos_of_scalar hfrom, (makeGenericSqlBound_of_scalar hfrom _).2,
      Bool.and_comm]
    cases toToken with
    | none => rfl
    | some token =>
      rw [map_some, all_some, (makeGenericSqlBound_of_scalar (hto token rfl) _).1]

/-- If the query selects only events that are wanted, the events of a page are fetched. -/
theorem fetched_of_selected {κ : Type} [LinearOrder κ] {key : RoomEventRow → κ} (order : SortOrder)
    (hrows : (rows.map key).Nodup) (limit : ℕ) :
    Fetched order key rows ((sortRows order key rows).take limit) limit := by
  intro e he
  obtain ⟨hmem, hlt⟩ := (mem_take_sortRows hrows).mp he
  exact ⟨hmem, by omega⟩

/-- **Pages between tokens without positions of writers are complete.** -/
theorem paginateRoomEventsTxn_of_scalar (limit : ℕ) (hfrom : Scalar fromToken)
    (hto : ∀ token ∈ toToken, Scalar token) :
    (t.paginateRoomEventsTxn engine roomId fromToken toToken direction limit).1 =
      (t.paginationPage roomId fromToken toToken direction limit).map dictReturn := by
  apply (t.paginateRoomEventsTxn_iff engine roomId fromToken toToken direction limit).mpr
  rw [t.paginationRows_of_scalar engine roomId direction hfrom hto]
  apply fetched_of_selected
  exact t.nodup_historicalTuples (filter_sublist.trans (t.roomEvents_sublist roomId))

/-- A live token without positions of writers. -/
def PlainLive (token : RoomStreamToken) : Prop := token.topological = none ∧ Scalar token

/-- **Stream pages between plain live tokens are complete**, but for events that are not served. -/
theorem getRoomEventsStreamForRoom_of_plainLive {fromKey toKey : RoomStreamToken} (limit : ℕ)
    (order : SortOrder) (hfrom : PlainLive fromKey) (hto : PlainLive toKey)
    (hserved : ∀ e ∈ t.streamPage roomId fromKey toKey limit order, e.served = true) :
    (t.getRoomEventsStreamForRoom roomId fromKey toKey limit order).1 =
      (if order = .desc then (t.streamPage roomId fromKey toKey limit order).reverse
      else t.streamPage roomId fromKey toKey limit order) := by
  refine (t.getRoomEventsStreamForRoom_iff roomId fromKey toKey limit order).mpr ⟨?_, hserved⟩
  have hrows : t.streamRows roomId fromKey toKey =
      (t.roomEvents roomId).filter (filterResults (some fromKey) (some toKey)) := by
    refine filter_congr fun e _ => ?_
    unfold filterResults
    dsimp only [all_some]
    rw [hfrom.1, hto.1, getMaxStreamPos_of_scalar hto.2, streamPosFor_of_scalar hfrom.2,
      streamPosFor_of_scalar hto.2]
    simp only [not_le, not_lt]
  rw [hrows]
  apply fetched_of_selected
  exact t.nodup_streamOrderings (filter_sublist.trans (t.roomEvents_sublist roomId))

/-- **A page has the first events between the tokens** exactly if they are fetched: each of them is
among the rows that the query selects, with fewer than twice the limit before it; and, for the stream
page, exactly if they are also served. -/
theorem roomPages_iff (fromKey toKey : RoomStreamToken) (order : SortOrder)
    (toToken : Option RoomStreamToken) (direction : Direction) (limit : ℕ) :
    ((t.getRoomEventsStreamForRoom roomId fromKey toKey limit order).1 =
        (if order = .desc then (t.streamPage roomId fromKey toKey limit order).reverse
        else t.streamPage roomId fromKey toKey limit order) ↔
      Fetched order streamOrdering (t.streamRows roomId fromKey toKey)
          (t.streamPage roomId fromKey toKey limit order) limit ∧
        ∀ e ∈ t.streamPage roomId fromKey toKey limit order, e.served = true) ∧
    ((t.paginateRoomEventsTxn engine roomId fromKey toToken direction limit).1 =
        (t.paginationPage roomId fromKey toToken direction limit).map dictReturn ↔
      Fetched (directionOrder direction) historicalTuple
        (t.paginationRows engine roomId fromKey toToken direction)
        (t.paginationPage roomId fromKey toToken direction limit) limit) :=
  ⟨t.getRoomEventsStreamForRoom_iff roomId fromKey toKey limit order,
    t.paginateRoomEventsTxn_iff engine roomId fromKey toToken direction limit⟩

variable {t engine roomId direction}

/-! ## A page that is empty

Two writers persist events in a room.  According to the token, `w1` is done up to 4 and `w2` up to 1 only,
but its events 2 and 3 are in the table already. -/

/-- Two events of `w2` and a later one of `w1`. -/
def twoWriters : RoomEventTables where
  events := [⟨"$a", "!room", some "w2", 2, 2, false, true⟩, ⟨"$b", "!room", some "w2", 3, 3, false, true⟩,
    ⟨"$c", "!room", some "w1", 4, 4, false, true⟩]
  hasEntityChanged := fun _ _ => true
  nodupEventIds := by decide
  nodupStreamOrderings := by decide
  changed := fun _ _ _ _ => rfl

/-- All writers are done up to 1. -/
def oneToken : RoomStreamToken := .live ⟨1, ∅⟩

/-- The writer `w1` is done up to 4. -/
def aheadToken : RoomStreamToken := .live ⟨1, Dict.single "w1" 4⟩

/-- With the limit 1 two rows are fetched, both of `w2`; the event of `w1` lies between the tokens, but
the pages are empty. -/
theorem twoWriters_emptyPage :
    (twoWriters.getRoomEventsStreamForRoom "!room" oneToken aheadToken 1 .asc).1 = [] ∧
      (twoWriters.streamPage "!room" oneToken aheadToken 1 .asc).map eventId = ["$c"] ∧
      (twoWriters.paginateRoomEventsTxn .postgres "!room" oneToken (some aheadToken) .forwards 1).1 = [] ∧
      (twoWriters.paginationPage "!room" oneToken (some aheadToken) .forwards 1).map
        eventId = ["$c"] := by
  decide +kernel

end RoomEventTables
end Synapse.Storage
