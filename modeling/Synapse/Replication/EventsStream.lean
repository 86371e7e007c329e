import Synapse.Storage.EventRows
import Synapse.Util.HeapMerge
import Synapse.Util.PyValue

/-!
# The events stream

`EventsStream._update_function` puts three sources together: new events, changes of the current state,
and events that are outliers no longer.  All three count in the same stream IDs, and a page goes up to
one token for all of them: the events are limited first, then the changes of state up to the last event,
and what is above the token that the changes of state leave is dropped from the events again.

Changes of state are the difficult source, since there may be any number of them with one stream ID.
`get_all_updated_current_state_deltas` takes back the last stream ID if its limit has been reached; and if
there is no other, it reads all changes of that stream ID, without a limit.  Either way it gives all
changes up to the token it returns (`EventsStreamTables.deltas_spec`).  If there are very many changes of a
room on one page they are replaced by one row that stands for all; as the pages are smaller than that
otherwise, this happens only on a page with a single stream ID (`stateAllRows_cases`).
-/

namespace Synapse.Replication

open Synapse.Util Synapse.Storage List
open EventsRow (streamOrdering)

/-! ## Rows -/

/-- What the stream reads of a row of `current_state_delta_stream`. -/
structure DeltaRow where
  streamId : ℤ
  roomId : String
  type : String
  stateKey : String
  eventId : Option String
  instanceName : Option String
deriving DecidableEq

structure EventsStreamEventRow where
  eventId : String
  roomId : String
  type : String
  stateKey : Option String
  redacts : Option String
  relatesTo : Option String
  membership : Option String
  rejected : Bool
  outlier : Bool
deriving DecidableEq

structure EventsStreamCurrentStateRow where
  roomId : String
  type : String
  stateKey : String
  eventId : Option String
deriving DecidableEq

structure EventsStreamAllStateRow where
  roomId : String
deriving DecidableEq

inductive EventsStreamRow
  | event (data : EventsStreamEventRow)
  | currentState (data : EventsStreamCurrentStateRow)
  | allState (data : EventsStreamAllStateRow)
deriving DecidableEq

abbrev EventsUpdate := ℤ × EventsStreamRow

/-- A value in a row, as Python compares it. -/
inductive Column
  | text (s : String)
  | null
  | bool (b : Bool)
deriving DecidableEq

/-- `None` or a text. -/
def Column.ofOption : Option String → Column
  | none => .null
  | some s => .text s

namespace EventsStreamRow

/-- `TypeId`. -/
def typeId : EventsStreamRow → String
  | event _ => "ev"
  | currentState _ => "state"
  | allState _ => "state-all"

/-- What a row is sent as, after its type. -/
def columns : EventsStreamRow → List Column
  | event data => [.text data.eventId, .text data.roomId, .text data.type, .ofOption data.stateKey,
      .ofOption data.redacts, .ofOption data.relatesTo, .ofOption data.membership, .bool data.rejected,
      .bool data.outlier]
  | currentState data => [.text data.roomId, .text data.type, .text data.stateKey,
      .ofOption data.eventId]
  | allState data => [.text data.roomId]

def isEvent : EventsStreamRow → Bool
  | event _ => true
  | _ => false

end EventsStreamRow

/-- `<` on two values that are not equal. -/
def Column.lt : Column → Column → Except PyError Bool
  | .text s, .text s' => .ok (s < s')
  | .bool b, .bool b' => .ok (!b && b')
  | _, _ => .error .typeError

/-- `<` on two lists. -/
def columnsLt : List Column → List Column → Except PyError Bool
  | [], [] => .ok false
  | [], _ :: _ => .ok true
  | _ :: _, [] => .ok false
  | c :: cs, c' :: cs' => if c = c' then columnsLt cs cs' else c.lt c'

/-- `<` on two updates `(stream_id, (TypeId, rest))`. -/
def updateLt (u u' : EventsUpdate) : Except PyError Bool :=
  if u.1 ≠ u'.1 then .ok (u.1 < u'.1)
  else if u.2.typeId ≠ u'.2.typeId then .ok (u.2.typeId < u'.2.typeId)
  else columnsLt u.2.columns u'.2.columns

/-! ## Queries -/

open DeltaRow (streamId)

/-- The tables that the stream reads.  The changes of state with one stream ID are of one room, and have
one writer. -/
structure EventsStreamTables extends EventTables where
  currentStateDeltaStream : List DeltaRow
  oneRoom : ∀ d ∈ currentStateDeltaStream, ∀ d' ∈ currentStateDeltaStream, d.streamId = d'.streamId →
    d.roomId = d'.roomId ∧ d.instanceName = d'.instanceName

/-- `for idx in range(idx, 0, -1): if rows[idx - 1][0] <= to_token`. -/
def searchBackwards (rows : List DeltaRow) (toToken : ℤ) : ℕ → Option ℕ
  | 0 => none
  | idx + 1 =>
    if (rows[idx]?).any fun d => d.streamId ≤ toToken then some (idx + 1)
    else searchBackwards rows toToken idx

namespace EventsStreamTables
variable (t : EventsStreamTables)

/-- What the stream says about an event. -/
def eventRow (e : EventsRow) : EventsStreamRow := .event {
  eventId := e.eventId
  roomId := e.roomId
  type := e.type
  stateKey := t.stateEvents.lookup e.eventId
  redacts := t.redactions.lookup e.eventId
  relatesTo := t.eventRelations.lookup e.eventId
  membership := t.roomMemberships.lookup e.eventId
  rejected := (t.rejections.lookup e.eventId).isSome
  outlier := e.outlier }

variable (instanceName : String) (lastId currentId : ℤ)

/-- `get_all_new_forward_event_rows`. -/
def getAllNewForwardEventRows (limit : ℕ) : List EventsRow := (orderBy streamOrdering
    (between streamOrdering (t.writerEvents instanceName) lastId currentId)).take limit

/-- `get_ex_outlier_stream_rows`. -/
def getExOutlierStreamRows : List (ExOutlierRow × EventsRow) :=
  orderBy (fun out => out.1.eventStreamOrdering)
    (between (fun out => out.1.eventStreamOrdering) (t.writerExOutliers instanceName) lastId currentId)

def writerDeltas (instanceName : String) : List DeltaRow :=
  t.currentStateDeltaStream.filter fun d => d.instanceName = some instanceName

/-- `get_all_updated_current_state_deltas`; `order` is the order in which the database has rows that the
query does not sort. -/
def getAllUpdatedCurrentStateDeltas (order : RowOrder DeltaRow) (instanceName : String)
    (fromToken toToken : ℤ) (targetRowCount : ℕ) : Except PyError (List DeltaRow × ℤ × Bool) :=
  let rows := (orderBy streamId (order.order
    (between streamId (t.writerDeltas instanceName) fromToken toToken))).take targetRowCount
  if rows.length < targetRowCount then .ok (rows, toToken, false)
  else
    match rows.getLast? with
    | none => .error .indexError
    | some last =>
      if ¬last.streamId ≤ toToken then .error .assertionError
      else
        match searchBackwards rows (last.streamId - 1) (rows.length - 1) with
        | some idx => .ok (rows.take idx, last.streamId - 1, true)
        | none => .ok (order.order (t.currentStateDeltaStream.filter fun d =>
            d.streamId = last.streamId - 1 + 1), last.streamId - 1 + 1, true)

end EventsStreamTables

/-! ## The update function -/

/-- `_MAX_STATE_UPDATES_PER_ROOM`. -/
def maxStateUpdatesPerRoom : ℕ := 150

variable (stateRows : List DeltaRow)

/-- `state_all_rows`: the rooms with many changes, and the stream ID of the last one. -/
def stateAllRows : List (ℤ × String) := (groupBy DeltaRow.roomId stateRows).filterMap fun group =>
    if group.2.length ≥ maxStateUpdatesPerRoom then group.2.getLast?.map fun d => (d.streamId, group.1)
    else none

def DeltaRow.update (d : DeltaRow) : EventsUpdate :=
  (d.streamId, .currentState ⟨d.roomId, d.type, d.stateKey, d.eventId⟩)

/-- `state_all_updates`. -/
def stateAllUpdates : List EventsUpdate :=
  (stateAllRows stateRows).map fun row => (row.1, .allState ⟨row.2⟩)

/-- `state_updates`: the changes in the other rooms. -/
def stateUpdates : List EventsUpdate :=
  (stateRows.filter fun d => d.roomId ∉ (stateAllRows stateRows).map Prod.snd).map DeltaRow.update

namespace EventsStreamTables

/-- `event_rows[-1][0]`, if the limit has been reached, and whether it has. -/
def upperLimit (eventRows : List EventsRow) (currentToken : ℤ) (targetRowCount : ℕ) :
    Except PyError (ℤ × Bool) :=
  if eventRows.length = targetRowCount then
    match eventRows.getLast? with
    | none => .error .indexError
    | some last => .ok (last.streamOrdering, true)
  else .ok (currentToken, false)

variable (t : EventsStreamTables)

/-- `event_updates`: the events that were read, up to a token. -/
def eventUpdates (eventRows : List EventsRow) (upper : ℤ) : List EventsUpdate :=
  (eventRows.filter fun e => e.streamOrdering ≤ upper).map fun e => (e.streamOrdering, t.eventRow e)

/-- `ex_outliers_updates`. -/
def exOutliersUpdates (instanceName : String) (fromToken upper : ℤ) : List EventsUpdate :=
  (t.getExOutlierStreamRows instanceName fromToken upper).map fun out =>
    (out.1.eventStreamOrdering, t.eventRow out.2)

/-- `updates`: the rows of all sources up to a token, merged. -/
def mergeUpdates (instanceName : String) (eventRows : List EventsRow) (stateRows : List DeltaRow)
    (fromToken upper : ℤ) : Except PyError (List EventsUpdate) :=
  heapMerge updateLt [t.eventUpdates eventRows upper, stateAllUpdates stateRows,
    stateUpdates stateRows, t.exOutliersUpdates instanceName fromToken upper]

variable (order : RowOrder DeltaRow) (instanceName : String)

/-- `EventsStream._update_function`. -/
def updateFunction (fromToken currentToken : ℤ) (targetRowCount : ℕ) :
    Except PyError (Page EventsUpdate) :=
  if fromToken ≥ currentToken then .ok ⟨[], currentToken, false⟩
  else
    let targetRowCount := targetRowCount / 2
    let eventRows := t.getAllNewForwardEventRows instanceName fromToken currentToken targetRowCount
    if ¬eventRows.length ≤ targetRowCount then .error .assertionError
    else do
      let (upper, limited) ← upperLimit eventRows currentToken targetRowCount
      let (stateRows, upper, stateRowsLimited) ←
        t.getAllUpdatedCurrentStateDeltas order instanceName fromToken upper targetRowCount
      let updates ← t.mergeUpdates instanceName eventRows stateRows fromToken upper
      pure ⟨updates, upper, limited || stateRowsLimited⟩

def eventsPage (currentToken : ℤ) (targetRowCount : ℕ) (fromToken : ℤ) : Option (Page EventsUpdate) :=
  (t.updateFunction order instanceName fromToken currentToken targetRowCount).toOption

/-- The rows about events, new ones and those that are outliers no longer. -/
def eventRows (instanceName : String) : List EventsUpdate :=
  ((t.writerEvents instanceName).map fun e => (e.streamOrdering, t.eventRow e)) ++
    (t.writerExOutliers instanceName).map fun out => (out.1.eventStreamOrdering, t.eventRow out.2)

/-! ## New events -/

variable {t : EventsStreamTables} {order : RowOrder DeltaRow} {instanceName : String}
  {fromToken toToken currentToken upper : ℤ} {targetRowCount : ℕ}

/-- What the limit cuts off is above the token that it gives. -/
theorem upperLimit_spec {rows : List EventsRow}
    (hsorted : Increasing streamOrdering rows)
    (hrows : ∀ e ∈ rows, fromToken < e.streamOrdering ∧ e.streamOrdering ≤ currentToken)
    (hlt : fromToken < currentToken) (htarget : 1 ≤ targetRowCount) : ∃ upper limited,
      upperLimit (rows.take targetRowCount) currentToken targetRowCount = .ok (upper, limited) ∧
      fromToken < upper ∧ upper ≤ currentToken ∧ (limited = false → upper = currentToken) ∧
      ∀ e ∈ rows.drop targetRowCount, upper < e.streamOrdering := by
  unfold upperLimit
  by_cases hlength : (rows.take targetRowCount).length = targetRowCount
  · have hne : rows.take targetRowCount ≠ [] := ne_nil_of_length_pos (by omega)
    have hlast := getLast_mem hne
    rw [if_pos hlength, getLast?_eq_some_getLast hne]
    obtain ⟨hlow, hhigh⟩ := hrows _ (mem_of_mem_take hlast)
    refine ⟨_, _, rfl, hlow, hhigh, nofun, fun e he => ?_⟩
    rw [← take_append_drop targetRowCount rows] at hsorted
    exact (pairwise_append.mp hsorted).2.2 _ hlast e he
  · rw [if_neg hlength]
    have hnone : rows.drop targetRowCount = [] := by
      rw [length_take] at hlength
      exact drop_eq_nil_of_le (by omega)
    refine ⟨_, _, rfl, hlt, le_rfl, fun _ => rfl, fun e he => ?_⟩
    exact absurd (hnone ▸ he) not_mem_nil

variable (t : EventsStreamTables)

theorem pairwise_lt_forwardEventRows (instanceName : String) (fromToken currentToken : ℤ) :
    (orderBy streamOrdering (between streamOrdering (t.writerEvents instanceName)
      fromToken currentToken)).Pairwise fun e e' => e.streamOrdering < e'.streamOrdering := by
  apply pairwise_lt_orderBy
  exact (nodup_append.mp (t.nodup_streamIds instanceName)).1.sublist (filter_sublist.map _)

/-! ## Changes of state -/

variable {rows : List DeltaRow} {idx : ℕ}

/-- Searching backwards finds the last row up to a token. -/
theorem searchBackwards_some : ∀ {n : ℕ}, searchBackwards rows toToken n = some idx →
    ∃ k d, idx = k + 1 ∧ idx ≤ n ∧ rows[k]? = some d ∧ d.streamId ≤ toToken ∧
      (idx < n → ∀ d', rows[idx]? = some d' → toToken < d'.streamId)
  | 0, h => nomatch h
  | n + 1, h => by
    unfold searchBackwards at h
    split at h
    next hany =>
      obtain rfl : n + 1 = idx := Option.some.inj h
      obtain ⟨d, hd, hle⟩ := Option.any_eq_true _ _ |>.mp hany
      exact ⟨n, d, rfl, le_rfl, hd, of_decide_eq_true hle, fun hlt => absurd hlt (lt_irrefl _)⟩
    next hany =>
      obtain ⟨k, d, hk, hle, hd, htoken, hnext⟩ := searchBackwards_some h
      refine ⟨k, d, hk, by omega, hd, htoken, fun _ d' hd' => ?_⟩
      by_cases hlt : idx < n
      · exact hnext hlt d' hd'
      · obtain rfl : idx = n := by omega
        rw [hd'] at hany
        simpa using hany

/-- If it finds none, the first row is above the token. -/
theorem searchBackwards_none : ∀ {n : ℕ},
    searchBackwards rows toToken n = none → 0 < n → ∀ d, rows[0]? = some d → toToken < d.streamId
  | 0, _, hn => absurd hn (lt_irrefl _)
  | n + 1, h, _ => by
    unfold searchBackwards at h
    split at h
    · exact nomatch h
    next hany =>
      intro d hd
      by_cases hn : 0 < n
      · exact searchBackwards_none h hn d hd
      · obtain rfl : n = 0 := by omega
        rw [hd] at hany
        simpa using hany

section
variable {rows : List DeltaRow} {n : ℕ} {last : DeltaRow}
  (hsorted : Ascending DeltaRow.streamId rows) (hlast : rows[n]? = some last)
include hsorted hlast

/-- The rows up to the one that is found are those below the last one. -/
theorem take_eq_filter_of_searchBackwards
    (h : searchBackwards (rows.take (n + 1)) (last.streamId - 1) n = some idx) :
    idx ≤ n ∧ (∃ d ∈ rows, d.streamId ≤ last.streamId - 1) ∧
      rows.take idx = rows.filter fun d => d.streamId ≤ last.streamId - 1 := by
  obtain ⟨k, d, rfl, hle, hd, htoken, hnext⟩ := searchBackwards_some h
  have htake : ∀ i ≤ n, (rows.take (n + 1))[i]? = rows[i]? := fun i hi =>
    getElem?_take_of_lt (by omega)
  rw [htake k (by omega)] at hd
  have hbelow : ∀ d' ∈ rows.take (k + 1), d'.streamId ≤ last.streamId - 1 := fun d' hd' =>
    (le_of_mem_take hsorted hd hd').trans htoken
  have habove : ∀ d' ∈ rows.drop (k + 1), last.streamId - 1 < d'.streamId := by
    by_cases hlt : k + 1 < n
    · obtain ⟨hn, _⟩ := List.getElem?_eq_some_iff.mp hlast
      have hget := getElem?_eq_getElem (show k + 1 < rows.length by omega)
      have hfirst := hnext hlt _ ((htake _ (by omega)).trans hget)
      exact fun d' hd' => lt_of_lt_of_le hfirst (le_of_mem_drop hsorted hget hd')
    · obtain rfl : k + 1 = n := by omega
      intro d' hd'
      have := le_of_mem_drop hsorted hlast hd'
      omega
  refine ⟨hle, ⟨d, mem_of_getElem? hd, htoken⟩, ?_⟩
  rw [← filter_take_of_drop fun d' hd' => decide_eq_false (not_le.mpr (habove d' hd'))]
  exact (filter_eq_self.mpr fun d' hd' => decide_eq_true (hbelow d' hd')).symm

/-- If none is found, no row is below the last one. -/
theorem le_of_searchBackwards (h : searchBackwards (rows.take (n + 1)) (last.streamId - 1) n = none) :
    ∀ d ∈ rows, last.streamId ≤ d.streamId := by
  obtain ⟨hn, _⟩ := List.getElem?_eq_some_iff.mp hlast
  have hget := getElem?_eq_getElem (show 0 < rows.length by omega)
  have hfirst : last.streamId ≤ (rows[0]).streamId := by
    by_cases hpos : 0 < n
    · have := searchBackwards_none h hpos _ ((getElem?_take_of_lt (by omega)).trans hget)
      omega
    · obtain rfl : n = 0 := by omega
      rw [hget] at hlast
      rw [Option.some.inj hlast]
  intro d hd
  exact hfirst.trans (le_of_mem_drop hsorted hget (by rwa [drop_zero]))

end

/-- The query for one stream ID does not look at the writer, but all its changes have the same one. -/
theorem filter_streamId_eq {last : DeltaRow}
    (hlast : last ∈ t.writerDeltas instanceName) (hlow : fromToken < last.streamId)
    (hall : ∀ d ∈ t.writerDeltas instanceName, fromToken < d.streamId → d.streamId ≤ last.streamId →
      last.streamId ≤ d.streamId) :
    (t.currentStateDeltaStream.filter fun d => d.streamId = last.streamId) =
      between streamId (t.writerDeltas instanceName) fromToken last.streamId := by
  obtain ⟨hmem, hwriter⟩ := mem_filter.mp hlast
  unfold between writerDeltas
  rw [filter_filter]
  refine filter_congr fun d hd => ?_
  rw [← Bool.decide_and, decide_eq_decide]
  constructor
  · intro heq
    have hinstance := (t.oneRoom d hd last hmem heq).2
    exact ⟨⟨by omega, by omega⟩, hinstance.trans (of_decide_eq_true hwriter)⟩
  · intro h
    have := hall d (mem_filter.mpr ⟨hd, decide_eq_true h.2⟩) h.1.1 h.1.2
    omega

/-- What `get_all_updated_current_state_deltas` gives: all changes up to the token that it returns, and
either fewer than the limit, or those with one stream ID. -/
structure DeltasSpec (t : EventsStreamTables) (instanceName : String) (fromToken toToken : ℤ)
    (targetRowCount : ℕ) (rows : List DeltaRow) (upper : ℤ) (limited : Bool) : Prop where
  perm : rows.Perm (between streamId (t.writerDeltas instanceName) fromToken upper)
  sorted : Ascending DeltaRow.streamId rows
  low : fromToken < upper
  high : upper ≤ toToken
  last : limited = false → upper = toToken
  few : rows.length < targetRowCount ∨ ∀ d ∈ rows, d.streamId = upper

theorem deltas_spec (order : RowOrder DeltaRow) (instanceName : String)
    (hlt : fromToken < toToken) (htarget : 1 ≤ targetRowCount) : ∃ rows upper limited,
      t.getAllUpdatedCurrentStateDeltas order instanceName fromToken toToken targetRowCount =
        .ok (rows, upper, limited) ∧
      t.DeltasSpec instanceName fromToken toToken targetRowCount rows upper limited := by
  unfold getAllUpdatedCurrentStateDeltas
  generalize hrows : orderBy streamId (order.order (between streamId
    (t.writerDeltas instanceName) fromToken toToken)) = rows₀
  have hperm := hrows ▸ (orderBy_perm _).trans (order.perm _)
  have hsorted : Ascending DeltaRow.streamId rows₀ := hrows ▸ pairwise_le_orderBy _
  dsimp only
  split
  next hlength =>
    have hall : rows₀.take targetRowCount = rows₀ := by
      rw [length_take] at hlength
      exact take_of_length_le (by omega)
    rw [hall] at hlength ⊢
    exact ⟨_, _, _, rfl, hperm, hsorted, hlt, le_rfl, fun _ => rfl, .inl hlength⟩
  next hlength =>
    -- the limit has been reached: `n + 1` is the limit, and the last row is the one at `n`
    obtain ⟨n, rfl⟩ : ∃ n, targetRowCount = n + 1 := ⟨targetRowCount - 1, by omega⟩
    have htake : (rows₀.take (n + 1)).length = n + 1 := by
      have := length_take_le (n + 1) rows₀
      omega
    have hn : n < rows₀.length := by
      rw [length_take] at htake
      omega
    have hlast : rows₀[n]? = some rows₀[n] := getElem?_eq_getElem hn
    have hgetLast : (rows₀.take (n + 1)).getLast? = some rows₀[n] := by
      rw [take_succ_eq_append_getElem hn, getLast?_concat]
    have hbounds := (mem_between.mp (hperm.subset (getElem_mem hn))).2
    have hmem : ∀ d, d ∈ rows₀ ↔ d ∈ t.writerDeltas instanceName ∧ fromToken < d.streamId ∧
        d.streamId ≤ toToken := fun d => hperm.mem_iff.trans mem_between
    rw [hgetLast]
    dsimp only
    rw [if_neg (not_not.mpr hbounds.2), htake, Nat.add_sub_cancel]
    cases hsearch : searchBackwards (rows₀.take (n + 1)) ((rows₀[n]).streamId - 1) n with
    | some idx =>
      obtain ⟨hle, ⟨d, hd, hdle⟩, heq⟩ := take_eq_filter_of_searchBackwards hsorted hlast hsearch
      have hidx : (rows₀.take (n + 1)).take idx = rows₀.take idx := by
        rw [take_take, Nat.min_eq_left (by omega)]
      refine ⟨_, _, _, rfl, ?_, ?_, ?_, by omega, nofun, .inl ?_⟩
      · rw [hidx, heq, ← filter_between_le _ _ (show (rows₀[n]).streamId - 1 ≤ toToken by omega)]
        exact hperm.filter _
      · rw [hidx]
        exact hsorted.sublist (take_sublist _ _)
      · exact lt_of_lt_of_le ((hmem d).mp hd).2.1 hdle
      · rw [hidx, length_take]
        omega
    | none =>
      have hall := le_of_searchBackwards hsorted hlast hsearch
      have hstream : (rows₀[n]).streamId - 1 + 1 = (rows₀[n]).streamId := by omega
      have hfilter : (t.currentStateDeltaStream.filter fun d => d.streamId = (rows₀[n]).streamId) =
          between streamId (t.writerDeltas instanceName) fromToken (rows₀[n]).streamId := by
        refine t.filter_streamId_eq ((hmem _).mp (getElem_mem hn)).1 hbounds.1 ?_
        exact fun d hd hlow hhigh => hall d ((hmem d).mpr ⟨hd, hlow, by omega⟩)
      rw [hstream, hfilter]
      have hids : ∀ d ∈ order.order (between streamId (t.writerDeltas instanceName) fromToken
          (rows₀[n]).streamId), d.streamId = (rows₀[n]).streamId := by
        intro d hd
        obtain ⟨hd, hlow, hhigh⟩ := mem_between.mp ((order.perm _).subset hd)
        have := hall d ((hmem d).mpr ⟨hd, hlow, by omega⟩)
        omega
      refine ⟨_, _, _, rfl, order.perm _, ?_, hbounds.1, hbounds.2, nofun, .inr hids⟩
      exact pairwise_of_forall_mem_list fun d hd d' hd' => ((hids d hd).trans (hids d' hd').symm).le

end EventsStreamTables

variable {rows : List DeltaRow}

/-- A row stands for all changes of a room only where there are changes of that room, and with one stream
ID, only. -/
theorem stateAllRows_cases (h : rows.length < maxStateUpdatesPerRoom ∨
      ∃ n room, ∀ d ∈ rows, d.streamId = n ∧ d.roomId = room) :
    stateAllRows rows = [] ∨
      ∃ n room, stateAllRows rows = [(n, room)] ∧ ∀ d ∈ rows, d.streamId = n ∧ d.roomId = room := by
  rcases h with hfew | ⟨n, room, hone⟩
  · refine .inl (filterMap_eq_nil_iff.mpr fun group hmem => if_neg ?_)
    have := length_filter_le (fun d => decide (d.roomId = group.1)) rows
    rw [(mem_groupBy.mp hmem).2]
    omega
  · cases hrows : rows with
    | nil => exact .inl rfl
    | cons d rest =>
      rw [← hrows]
      have hne : rows ≠ [] := by simp [hrows]
      -- there is one group, and it has all rows
      have hrooms : (rows.map DeltaRow.roomId).dedup = [room] := by
        rw [map_eq_replicate_iff.mpr fun d hd => (hone d hd).2]
        exact replicate_dedup (by simpa using hne)
      have hall : (rows.filter fun d => d.roomId = room) = rows :=
        filter_eq_self.mpr fun d hd => decide_eq_true (hone d hd).2
      have hlast := (hone _ (getLast_mem hne)).1
      unfold stateAllRows groupBy
      rw [hrooms, map_singleton, hall]
      by_cases hmany : rows.length ≥ maxStateUpdatesPerRoom
      · refine .inr ⟨n, room, ?_, hone⟩
        simp [hmany, getLast?_eq_some_getLast hne, hlast]
      · exact .inl (by simp [hmany])

/-! ## The merge -/

theorem updateLt_respects : RespectsKey updateLt Prod.fst where
  of_lt := by
    intro u u' h
    unfold updateLt at h
    split at h
    next hne => exact (of_decide_eq_true (Except.ok.inj h)).le
    next heq => exact (not_not.mp heq).le
  of_not_lt := by
    intro u u' h
    unfold updateLt at h
    split at h
    next hne => exact not_lt.mp (of_decide_eq_false (Except.ok.inj h))
    next heq => exact (not_not.mp heq).ge

/-- Updates with different tokens, or of different types, can be compared. -/
theorem updateLt_ok {u u' : EventsUpdate} (h : u.1 ≠ u'.1 ∨ u.2.typeId ≠ u'.2.typeId) :
    ∃ b, updateLt u u' = .ok b := by
  unfold updateLt
  split
  · exact ⟨_, rfl⟩
  next heq =>
    rw [if_pos (h.resolve_left heq)]
    exact ⟨_, rfl⟩

variable {u : EventsUpdate}

/-- A row that stands for the changes of a room has the token of one of them. -/
theorem mem_stateAllUpdates (h : u ∈ stateAllUpdates rows) :
    ∃ d ∈ rows, u = (d.streamId, .allState ⟨d.roomId⟩) := by
  obtain ⟨row, hrow, rfl⟩ := mem_map.mp h
  obtain ⟨⟨room, group⟩, hgroup, hsome⟩ := mem_filterMap.mp hrow
  obtain ⟨_, rfl⟩ := mem_groupBy.mp hgroup
  obtain ⟨d, hd, rfl⟩ := Option.map_eq_some_iff.mp (Option.ite_none_right_eq_some.mp hsome).2
  obtain ⟨hmem, hroom⟩ := mem_filter.mp (mem_of_mem_getLast? hd)
  exact ⟨d, hmem, by rw [of_decide_eq_true hroom]⟩

theorem mem_stateUpdates (h : u ∈ stateUpdates rows) : ∃ d ∈ rows, u = d.update := by
  obtain ⟨d, hd, rfl⟩ := mem_map.mp h
  exact ⟨d, (mem_filter.mp hd).1, rfl⟩

namespace EventsStreamTables
variable {t : EventsStreamTables} {order : RowOrder DeltaRow} {instanceName : String}
  {fromToken toToken currentToken upper : ℤ} {targetRowCount : ℕ}

theorem mem_exOutliersUpdates (h : u ∈ t.exOutliersUpdates instanceName fromToken upper) :
    ∃ out ∈ t.writerExOutliers instanceName, u = (out.1.eventStreamOrdering, t.eventRow out.2) := by
  obtain ⟨out, hout, rfl⟩ := mem_map.mp h
  exact ⟨out, (mem_between.mp (mem_orderBy.mp hout)).1, rfl⟩

variable (t)

/-- No event has the token of one that is an outlier no longer. -/
theorem streamOrdering_ne {e : EventsRow} {out : ExOutlierRow × EventsRow}
    (he : e ∈ t.writerEvents instanceName) (hout : out ∈ t.writerExOutliers instanceName) :
    e.streamOrdering ≠ out.1.eventStreamOrdering :=
  (nodup_append.mp (t.nodup_streamIds instanceName)).2.2 _ (mem_map_of_mem he) _
    (mem_map_of_mem hout)

variable {eventRows : List EventsRow}

/-- The four sources can be compared: no two updates of different sources have the same token and
type. -/
theorem comparable_sources (hwriter : ∀ e ∈ eventRows, e ∈ t.writerEvents instanceName) :
    Comparable updateLt [t.eventUpdates eventRows upper, stateAllUpdates stateRows,
      stateUpdates stateRows, t.exOutliersUpdates instanceName fromToken upper] := by
  have hevent : ∀ u ∈ t.eventUpdates eventRows upper, ∃ e ∈ t.writerEvents instanceName,
      u = (e.streamOrdering, t.eventRow e) := by
    intro u hu
    obtain ⟨e, he, rfl⟩ := mem_map.mp hu
    exact ⟨e, hwriter e (mem_filter.mp he).1, rfl⟩
  have hev : ∀ u ∈ t.eventUpdates eventRows upper, u.2.typeId = "ev" :=
    forall_mem_map.mpr fun _ _ => rfl
  have hout : ∀ u ∈ t.exOutliersUpdates instanceName fromToken upper, u.2.typeId = "ev" :=
    forall_mem_map.mpr fun _ _ => rfl
  have hstate : ∀ u ∈ stateUpdates stateRows, u.2.typeId = "state" :=
    forall_mem_map.mpr fun _ _ => rfl
  have hall : ∀ u ∈ stateAllUpdates stateRows, u.2.typeId = "state-all" :=
    forall_mem_map.mpr fun _ _ => rfl
  have hdiffer : ∀ {xs ys : List EventsUpdate} {a b : String}, b ≠ a → (∀ u ∈ xs, u.2.typeId = a) →
      (∀ u ∈ ys, u.2.typeId = b) → ∀ x ∈ xs, ∀ y ∈ ys, ∃ c, updateLt y x = .ok c := by
    intro xs ys a b hne hxs hys x hx y hy
    refine updateLt_ok (.inr ?_)
    rwa [hxs x hx, hys y hy]
  unfold Comparable
  simp only [pairwise_cons, mem_cons, not_mem_nil, or_false, forall_eq_or_imp, forall_eq,
    false_implies, implies_true, and_true, List.Pairwise.nil]
  refine ⟨⟨hdiffer (by decide) hev hall, hdiffer (by decide) hev hstate, ?_⟩,
    ⟨hdiffer (by decide) hall hstate, hdiffer (by decide) hall hout⟩, hdiffer (by decide) hstate hout⟩
  intro u hu u' hu'
  obtain ⟨e, he, rfl⟩ := hevent u hu
  obtain ⟨out, hout, rfl⟩ := mem_exOutliersUpdates hu'
  exact updateLt_ok (.inl (t.streamOrdering_ne he hout).symm)

/-- The merge gives the updates of all sources, sorted. -/
theorem mergeUpdates_spec (fromToken upper : ℤ) {stateRows : List DeltaRow}
    (hevents : Increasing streamOrdering eventRows)
    (hwriter : ∀ e ∈ eventRows, e ∈ t.writerEvents instanceName)
    (hsorted : Ascending DeltaRow.streamId stateRows)
    (hall : (stateAllRows stateRows).length ≤ 1) :
    ∃ updates, t.mergeUpdates instanceName eventRows stateRows fromToken upper = .ok updates ∧
      updates.Perm [t.eventUpdates eventRows upper, stateAllUpdates stateRows, stateUpdates stateRows,
        t.exOutliersUpdates instanceName fromToken upper].flatten ∧
      Ascending Prod.fst updates := by
  refine heapMerge_spec updateLt_respects (t.comparable_sources stateRows hwriter) fun list hlist => ?_
  simp only [mem_cons, not_mem_nil, or_false] at hlist
  rcases hlist with rfl | rfl | rfl | rfl
  · exact pairwise_map.mpr ((hevents.sublist filter_sublist).imp fun h => h.le)
  · match hrows : stateAllRows stateRows, hall with
    | [], _ => rw [stateAllUpdates, hrows]; exact .nil
    | [row], _ => rw [stateAllUpdates, hrows]; exact pairwise_singleton _ _
  · exact pairwise_map.mpr (hsorted.sublist filter_sublist)
  · exact pairwise_map.mpr (pairwise_le_orderBy _)

/-! ## A page -/

/-- What a page has: the rows of all sources between the position and its token, sorted; a change of
state may be replaced by a row that stands for all of its room. -/
structure EventsPageSpec (instanceName : String) (fromToken currentToken : ℤ) (page : Page EventsUpdate) :
    Prop extends PartPage (fun u u' => u.1 ≤ u'.1) Prod.fst fromToken currentToken page where
  events : (page.updates.filter fun u => u.2.isEvent).Perm
    (between Prod.fst (t.eventRows instanceName) fromToken page.token)
  deltas : ∀ d ∈ between streamId (t.writerDeltas instanceName) fromToken page.token,
    page.updates.count d.update = ((t.writerDeltas instanceName).map DeltaRow.update).count d.update ∨
      ∃ token, d.streamId ≤ token ∧ (token, .allState ⟨d.roomId⟩) ∈ page.updates

/-- Between a position and itself there is nothing to read. -/
theorem eventsPageSpec_nil (instanceName : String) (currentToken : ℤ) :
    t.EventsPageSpec instanceName currentToken currentToken ⟨[], currentToken, false⟩ where
  sorted := .nil
  part := nofun
  events := by
    rw [between_self]
    exact .nil
  deltas := fun d hd => by
    rw [between_self] at hd
    exact nomatch hd
  last := fun _ => rfl
  more := nofun

/-- The rows about events between two positions, source by source. -/
theorem between_eventRows (instanceName : String) (fromToken upper : ℤ) :
    between Prod.fst (t.eventRows instanceName) fromToken upper =
      ((between streamOrdering (t.writerEvents instanceName) fromToken upper).map fun e =>
          (e.streamOrdering, t.eventRow e)) ++
        (between (fun out => out.1.eventStreamOrdering) (t.writerExOutliers instanceName) fromToken
          upper).map fun out => (out.1.eventStreamOrdering, t.eventRow out.2) := by
  unfold eventRows
  rw [between_append, between_map, between_map]

variable {t} {rows : List DeltaRow}

/-- A change is between two positions as often as in the table. -/
theorem count_between_deltas {d : DeltaRow} (hlow : fromToken < d.streamId) (hhigh : d.streamId ≤ upper) :
    ((between streamId rows fromToken upper).map DeltaRow.update).count d.update =
      (rows.map DeltaRow.update).count d.update := by
  unfold between
  simp only [List.count, countP_map, countP_filter]
  refine countP_congr fun d' _ => ?_
  have hsame : d'.update = d.update → d'.streamId = d.streamId := congrArg Prod.fst
  simp only [Function.comp, beq_iff_eq, Bool.and_eq_true, decide_eq_true_eq]
  constructor
  · exact And.left
  · intro heq
    have := hsame heq
    exact ⟨heq, by omega, by omega⟩

variable {limited : Bool}

/-- Few changes, or changes with one stream ID, of which the room is then the same. -/
theorem DeltasSpec.few_or_oneRoom
    (h : t.DeltasSpec instanceName fromToken toToken targetRowCount rows upper limited)
    (htarget : targetRowCount ≤ maxStateUpdatesPerRoom) : rows.length < maxStateUpdatesPerRoom ∨
      ∃ n room, ∀ d ∈ rows, d.streamId = n ∧ d.roomId = room := by
  have hmem : ∀ d ∈ rows, d ∈ t.currentStateDeltaStream := fun d hd =>
    (mem_filter.mp (mem_between.mp (h.perm.subset hd)).1).1
  rcases h.few with hfew | hids
  · exact .inl (by omega)
  · match rows, hids, hmem with
    | [], _, _ => exact .inl (by decide)
    | d :: rest, hids, hmem =>
      refine .inr ⟨upper, d.roomId, fun d' hd' => ⟨hids d' hd', ?_⟩⟩
      refine (t.oneRoom d' (hmem d' hd') d (hmem d mem_cons_self) ?_).1
      exact (hids d' hd').trans (hids d mem_cons_self).symm

/-- If the events up to a token have been read, their updates and those of the events that are outliers
no longer are the rows about events up to that token. -/
theorem eventUpdates_perm (t : EventsStreamTables)
    (hevents : (eventRows.filter fun e => e.streamOrdering ≤ upper).Perm
      (between streamOrdering (t.writerEvents instanceName) fromToken upper)) :
    (t.eventUpdates eventRows upper ++ t.exOutliersUpdates instanceName fromToken upper).Perm
      (between Prod.fst (t.eventRows instanceName) fromToken upper) := by
  rw [between_eventRows]
  exact (hevents.map _).append ((orderBy_perm _).map _)

/-- The sources, those about events first. -/
theorem flatten_sources (events all state out : List EventsUpdate) :
    [events, all, state, out].flatten.Perm ((events ++ out) ++ (all ++ state)) := by
  have hflatten : [events, all, state, out].flatten = events ++ ((all ++ state) ++ out) := by simp
  rw [hflatten, append_assoc events]
  exact perm_append_comm.append_left events

/-- The merged rows of all sources make up a page. -/
theorem eventsPageSpec_of_perm {page : Page EventsUpdate}
    (hevents : (eventRows.filter fun e => e.streamOrdering ≤ page.token).Perm
      (between streamOrdering (t.writerEvents instanceName) fromToken page.token))
    (hdeltas : t.DeltasSpec instanceName fromToken toToken targetRowCount rows page.token limited)
    (hall : stateAllRows rows = [] ∨ ∃ n room, stateAllRows rows = [(n, room)] ∧
      ∀ d ∈ rows, d.streamId = n ∧ d.roomId = room)
    (hperm : page.updates.Perm [t.eventUpdates eventRows page.token, stateAllUpdates rows,
      stateUpdates rows, t.exOutliersUpdates instanceName fromToken page.token].flatten)
    (hsorted : Ascending Prod.fst page.updates) (htoken : page.token ≤ currentToken)
    (hlast : page.limited = false → page.token = currentToken) :
    t.EventsPageSpec instanceName fromToken currentToken page := by
  have hperm := hperm.trans (flatten_sources _ _ _ _)
  have hev := t.eventUpdates_perm hevents
  have hstate : ∀ d ∈ rows, fromToken < d.streamId ∧ d.streamId ≤ page.token := fun d hd =>
    (mem_between.mp (hdeltas.perm.subset hd)).2
  have hisEvent : ∀ u ∈ t.eventUpdates eventRows page.token ++
      t.exOutliersUpdates instanceName fromToken page.token, u.2.isEvent = true :=
    forall_mem_append.mpr ⟨forall_mem_map.mpr fun _ _ => rfl, forall_mem_map.mpr fun _ _ => rfl⟩
  have hnotEvent : ∀ u ∈ stateAllUpdates rows ++ stateUpdates rows, ¬u.2.isEvent = true :=
    forall_mem_append.mpr ⟨forall_mem_map.mpr fun _ _ => Bool.false_ne_true,
      forall_mem_map.mpr fun _ _ => Bool.false_ne_true⟩
  refine ⟨⟨hsorted, fun u hu => ?_, hlast, fun _ => ⟨hdeltas.low, htoken⟩⟩, ?_, fun d hd => ?_⟩
  · rcases mem_append.mp (hperm.subset hu) with hu | hu
    · exact (mem_between.mp (hev.subset hu)).2
    · rcases mem_append.mp hu with hu | hu
      · obtain ⟨d, hd, rfl⟩ := mem_stateAllUpdates hu
        exact hstate d hd
      · obtain ⟨d, hd, rfl⟩ := mem_stateUpdates hu
        exact hstate d hd
  · have hfilter := hperm.filter fun u => u.2.isEvent
    rw [filter_append, filter_eq_self.mpr hisEvent, filter_eq_nil_iff.mpr hnotEvent,
      append_nil] at hfilter
    exact hfilter.trans hev
  · obtain ⟨hmem, hlow, hhigh⟩ := mem_between.mp hd
    have hrow : d ∈ rows := hdeltas.perm.mem_iff.mpr hd
    -- a delta has its own row, or is one of those that a single row stands for
    rcases hall with hnone | ⟨n, room, hone, hrows⟩
    · left
      have hupdates : stateUpdates rows = rows.map DeltaRow.update := by
        unfold stateUpdates
        rw [hnone]
        exact congrArg _ (filter_eq_self.mpr fun d _ => rfl)
      have hother : (t.eventUpdates eventRows page.token ++
          t.exOutliersUpdates instanceName fromToken page.token).count d.update = 0 :=
        count_eq_zero.mpr fun h => absurd (hisEvent _ h) Bool.false_ne_true
      rw [hperm.count_eq, count_append, hother, stateAllUpdates, hnone, hupdates, Nat.zero_add,
        map_nil, nil_append, (hdeltas.perm.map _).count_eq, count_between_deltas hlow hhigh]
    · right
      obtain ⟨rfl, rfl⟩ := hrows d hrow
      refine ⟨d.streamId, le_rfl, hperm.mem_iff.mpr ?_⟩
      refine mem_append_right _ (mem_append_left _ ?_)
      rw [stateAllUpdates, hone]
      exact mem_cons_self

variable (t order instanceName)

/-- **A page has all the rows of its part.** -/
theorem eventsPage_spec (hle : fromToken ≤ currentToken) :
    ∃ page, t.eventsPage order instanceName currentToken 100 fromToken = some page ∧
      t.EventsPageSpec instanceName fromToken currentToken page := by
  unfold eventsPage updateFunction
  split
  next hge =>
    obtain rfl : fromToken = currentToken := le_antisymm hle hge
    exact ⟨_, rfl, t.eventsPageSpec_nil instanceName fromToken⟩
  next hlt =>
    have hsorted := t.pairwise_lt_forwardEventRows instanceName fromToken currentToken
    obtain ⟨upper, limited, hupper, hlow, hhigh, hlast, hcut⟩ := upperLimit_spec hsorted
      (fun e he => (mem_between.mp (mem_orderBy.mp he)).2) (not_le.mp hlt)
      (show 1 ≤ 100 / 2 by decide)
    obtain ⟨rows, upper', limited', hrows, hspec⟩ := t.deltas_spec order instanceName hlow
      (show 1 ≤ 100 / 2 by decide)
    have hall := stateAllRows_cases (hspec.few_or_oneRoom (by decide))
    have hone : (stateAllRows rows).length ≤ 1 := by
      rcases hall with hnone | ⟨n, room, hone, _⟩
      · rw [hnone]
        decide
      · rw [hone]
        exact le_rfl
    obtain ⟨updates, hmerge, hperm, hpairwise⟩ := t.mergeUpdates_spec fromToken upper'
      (hsorted.sublist (take_sublist (100 / 2) _))
      (fun e he => (mem_between.mp (mem_orderBy.mp (mem_of_mem_take he))).1) hspec.sorted hone
    refine ⟨⟨updates, upper', limited || limited'⟩, ?_, ?_⟩
    · unfold getAllNewForwardEventRows
      rw [if_neg (not_not.mpr (length_take_le _ _)), hupper]
      dsimp only [bind, Except.bind]
      rw [hrows]
      dsimp only
      rw [hmerge]
      rfl
    · refine eventsPageSpec_of_perm ?_ hspec hall hperm hpairwise (hspec.high.trans hhigh)
        fun hnot => ?_
      · rw [filter_take_of_drop fun e he =>
            decide_eq_false (not_le.mpr (lt_of_le_of_lt hspec.high (hcut e he))),
          ← filter_between_le _ _ (hspec.high.trans hhigh)]
        exact (orderBy_perm _).filter _
      · obtain ⟨hnot, hnot'⟩ := Bool.or_eq_false_iff.mp hnot
        exact (hspec.last hnot').trans (hlast hnot)

/-! ## All pages -/

/-- **Reading the events stream page by page is complete and ordered.**  It comes to an end; each page is
sorted and has tokens of its part only; every row about an event is read once; and every change of state
is read as often as it is in the table, or on its page there is a row for its room, with a token at or
after it, that stands for all changes of the room. -/
theorem updateFunction_complete (fromToken toToken : ℤ) (hlt : fromToken < toToken) :
    ∃ calls ps, pages (t.eventsPage order instanceName toToken 100) calls fromToken = some ps ∧
      (∀ start page, (start, page) ∈ ps → Ascending Prod.fst page.updates ∧
        ∀ u ∈ page.updates, start < u.1 ∧ u.1 ≤ page.token) ∧
      ((allUpdates ps).filter fun u => u.2.isEvent).Perm
        (between Prod.fst (t.eventRows instanceName) fromToken toToken) ∧
      ∀ d ∈ between streamId (t.writerDeltas instanceName) fromToken toToken,
        (allUpdates ps).count d.update =
            ((t.writerDeltas instanceName).map DeltaRow.update).count d.update ∨
          ∃ start page, (start, page) ∈ ps ∧ start < d.streamId ∧ d.streamId ≤ page.token ∧
            ∃ token, d.streamId ≤ token ∧ (token, .allState ⟨d.roomId⟩) ∈ page.updates := by
  obtain ⟨ps, hps, hdivide, hspec⟩ : ∃ ps,
      pages (t.eventsPage order instanceName toToken 100) ((toToken - fromToken).toNat + 1) fromToken =
        some ps ∧ Divide toToken fromToken ps ∧
      ∀ start page, (start, page) ∈ ps → t.EventsPageSpec instanceName start toToken page := by
    refine exists_pages (I := fun _ => True) (fun position hle _ => ?_) hlt.le trivial
      (Nat.lt_succ_self _)
    obtain ⟨page, hpage, hspec⟩ := t.eventsPage_spec order instanceName hle
    exact ⟨page, hpage, hspec, hspec.last, fun hmore => ⟨(hspec.more hmore).1, (hspec.more hmore).2,
      trivial⟩⟩
  refine ⟨_, ps, hps, fun start page hp => ⟨(hspec start page hp).sorted, (hspec start page hp).part⟩,
    ?_, fun d hd => ?_⟩
  · unfold allUpdates
    rw [filter_flatMap]
    exact hdivide.perm (f := fun page => page.updates.filter fun u => u.2.isEvent)
      fun p hp => (hspec p.1 p.2 hp).events
  · obtain ⟨hmem, hlow, hhigh⟩ := mem_between.mp hd
    obtain ⟨p, hp, hstart, htoken⟩ := hdivide.exists_part hlow hhigh
    rcases (hspec p.1 p.2 hp).deltas d (mem_between.mpr ⟨hmem, hstart, htoken⟩) with hcount | hall
    · left
      rw [← hcount]
      apply hdivide.count_eq (fun p hp => (hspec p.1 p.2 hp).part) p hp
      · exact hstart
      · exact htoken
    · exact .inr ⟨p.1, p.2, hp, hstart, htoken, hall⟩

variable {t order instanceName}

/-- Alice joins with the stream ID 1, which changes the state, and sends 60 messages; the first one is an
outlier no longer from 62 on. -/
def aliceJoins : EventsStreamTables where
  events := ⟨"$join", 1, "!room", "m.room.member", some "master", false⟩ ::
    (range 60).map fun n : ℕ => ⟨"$" ++ toString n, n + 2, "!room", "m.room.message", some "master", false⟩
  exOutlierStream := [⟨62, "$0", some "master"⟩]
  redactions := ∅
  stateEvents := Dict.single "$join" "@alice:hs"
  eventRelations := ∅
  roomMemberships := Dict.single "$join" "join"
  rejections := ∅
  eventIds := by decide +kernel
  streamIds := by decide +kernel
  currentStateDeltaStream := [⟨1, "!room", "m.room.member", "@alice:hs", some "$join", some "master"⟩]
  oneRoom := by decide

/-- It takes more than one page. -/
theorem aliceJoins_complete : ∃ calls ps,
    pages (aliceJoins.eventsPage ⟨id, fun _ => .refl _⟩ "master" 62 100) calls 0 = some ps ∧
      1 < ps.length ∧ ((allUpdates ps).filter fun u => u.2.isEvent).length = 62 := by
  obtain ⟨calls, ps, hps, _, hevents, _⟩ :=
    aliceJoins.updateFunction_complete ⟨id, fun _ => .refl _⟩ "master" 0 62 (by decide)
  have hlength : (pages (aliceJoins.eventsPage ⟨id, fun _ => .refl _⟩ "master" 62 100) 3 0).map
      List.length = some 2 := by decide +kernel
  obtain ⟨ps', hps', hlength⟩ := Option.map_eq_some_iff.mp hlength
  refine ⟨calls, ps, hps, ?_, hevents.length_eq.trans (by decide +kernel)⟩
  rw [pages_unique hps hps', hlength]
  decide

end EventsStreamTables
end Synapse.Replication
