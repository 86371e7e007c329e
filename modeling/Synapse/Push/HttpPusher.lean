import Synapse.Push.RoomCounts

/-!
# The HTTP pusher

`synapse/push/httppusher.py`.  A pusher tells a push gateway about the unread notifications of its user.
It keeps the stream ordering up to which it has done so, `last_stream_ordering`, and the one up to which
it may go, `max_stream_ordering`.  A round (`_unsafe_process`) asks the database for the next push
actions, of which it gets at most 20, and sends them to the gateway one after the other; `_process` does
rounds until `max_stream_ordering` has not changed during one.

What the pusher does not decide (what is in the tables when it reads them, what the gateway answers, what
time it is, which tokens `on_new_notifications` is called with meanwhile) is given for each round.  Tokens
that come during a round have an effect only after it: the round has read `max_stream_ordering` when it
waits for the first time.
-/

namespace Synapse.Push

open Synapse.Util Synapse.StateGroups

/-! ## Actions -/

/-- JSON values (numbers are integers in Matrix). -/
inductive Json where
  | null
  | bool (b : Bool)
  | number (n : ℤ)
  | string (s : String)
  | array (items : List Json)
  | object (fields : List (String × Json))

namespace Json

/-- What Python takes for true. -/
def truthy : Json → Bool
  | null => false
  | bool b => b
  | number n => n ≠ 0
  | string s => s ≠ ""
  | array items => !items.isEmpty
  | object fields => !fields.isEmpty

def isString (text : String) : Json → Bool
  | string s => s = text
  | _ => false

end Json

/-- `DEFAULT_NOTIF_ACTION`. -/
def defaultNotifAction : List Json :=
  [.string "notify", .object [("set_tweak", .string "highlight"), ("value", .bool false)]]

/-- `DEFAULT_HIGHLIGHT_ACTION`. -/
def defaultHighlightAction : List Json :=
  [.string "notify", .object [("set_tweak", .string "sound"), ("value", .string "default")],
    .object [("set_tweak", .string "highlight")]]

variable (dbToJson : String → Option (List Json))

/-- `_deserialize_action`.  `dbToJson` is `db_to_json`; nothing is returned where it raises. -/
def deserializeAction (actions : String) (isHighlight : Bool) : Option (List Json) :=
  if actions ≠ "" then dbToJson actions
  else if isHighlight then some defaultHighlightAction
  else some defaultNotifAction

/-- `tweaks_for_actions`.  The names of tweaks are strings. -/
def tweaksForActions (actions : List Json) : Dict String Json := actions.foldl (fun tweaks a =>
    match a with
    | .object fields =>
      match fields.lookup "set_tweak" with
      | some (.string name) => tweaks.insert name ((fields.lookup "value").getD (.bool true))
      | _ => tweaks
    | _ => tweaks) ∅

/-! ## Unread push actions -/

structure RoomReceipt where
  unthreadedStreamOrdering : ℤ := 0
  threadedStreamOrdering : Dict String ℤ := ∅

namespace RoomReceipt

def isUnread (r : RoomReceipt) (threadId : String) (streamOrdering : ℤ) : Bool :=
  r.unthreadedStreamOrdering < streamOrdering && r.threadedStreamOrdering.getD threadId 0 < streamOrdering

/-- The latest receipt for a thread, or the latest unthreaded one, is set. -/
def set (r : RoomReceipt) (threadId : Option String) (streamOrdering : ℤ) : RoomReceipt :=
  match threadId with
  | none => { r with unthreadedStreamOrdering := streamOrdering }
  | some threadId =>
    { r with threadedStreamOrdering := r.threadedStreamOrdering.insert threadId streamOrdering }

end RoomReceipt

variable (t : PushTables) (userId : String)

/-- The user's receipts for known events, of all rooms: the room, the thread and the stream ordering. -/
def PushTables.userReceipts : List ((String × Option String) × ℤ) :=
  t.receiptsLinearized.items.filterMap fun row =>
    if row.1.receiptType ∈ readReceiptTypes ∧ row.1.userId = userId then
      (t.eventIn row.1.roomId row.2.eventId).map fun streamOrdering =>
        ((row.1.roomId, row.1.threadId), streamOrdering)
    else none

/-- `SELECT room_id, thread_id, MAX(stream_ordering) … GROUP BY room_id, thread_id`. -/
def PushTables.latestReceipts : List ((String × Option String) × ℤ) :=
  (groupBy Prod.fst (t.userReceipts userId)).map fun group =>
    (group.1, (group.2.map Prod.snd).max?.getD 0)

def getReceiptsByRoomTxn : Dict String RoomReceipt := (t.latestReceipts userId).foldl (fun result row =>
    result.insert row.1.1 ((result.getD row.1.1 {}).set row.1.2 row.2)) ∅

structure HttpPushAction where
  eventId : String
  roomId : String
  streamOrdering : ℤ
  actions : List Json

/-- The user's notifications between two stream orderings, the oldest first. -/
def PushTables.notifsBetween (order : RowOrder PushAction) (t : PushTables) (userId : String)
    (minStreamOrdering maxStreamOrdering : ℤ) : List PushAction :=
  orderBy PushAction.streamOrdering (order.order (t.eventPushActions.filter fun a =>
    a.userId = userId && minStreamOrdering < a.streamOrdering && a.streamOrdering ≤ maxStreamOrdering &&
      a.notif))

/-- The push action has not been read, by the receipts of all rooms. -/
def PushAction.isUnreadBy (receiptsByRoom : Dict String RoomReceipt) (a : PushAction) : Bool :=
  (receiptsByRoom.getD a.roomId {}).isUnread a.threadId a.streamOrdering

/-- The receipts are read in a transaction of their own, before the push actions. -/
def getUnreadPushActionsForUserInRangeForHttp (order : RowOrder PushAction)
    (receipts t : PushTables) (userId : String) (minStreamOrdering maxStreamOrdering : ℤ)
    (limit : ℕ) : Option (List HttpPushAction) := do
  let receiptsByRoom := getReceiptsByRoomTxn receipts userId
  let pushActions := (t.notifsBetween order userId minStreamOrdering maxStreamOrdering).take limit
  let notifs ← (pushActions.filter (PushAction.isUnreadBy receiptsByRoom)).mapM fun a => do
    let actions ← deserializeAction dbToJson a.actions a.highlight
    return (⟨a.eventId, a.roomId, a.streamOrdering, actions⟩ : HttpPushAction)
  return (orderBy HttpPushAction.streamOrdering notifs).take limit

/-- `get_badge_count`. -/
def getBadgeCount (engine : DatabaseEngine) (t : PushTables) (invites joins : List String)
    (userId : String) (groupByRoom : Bool) : ℕ :=
  (getUnreadCountsByRoomForUserTxn engine t userId).items.foldl (fun badge item =>
    if item.1 ∉ joins then badge
    else if item.2 = 0 then badge
    else if groupByRoom then badge + 1
    else badge + item.2) invites.length

/-! ## The pusher -/

/-- The fields of an event that decide what is sent. -/
structure PushEvent where
  eventId : String
  roomId : String
  type : String

/-- What is sent to the gateway. -/
structure Notification where
  eventId : String
  roomId : String
  prio : String
  unread : ℕ
  tweaks : Dict String Json

inductive Answer where
  /-- The request failed. -/
  | failed
  /-- The gateway took it, and rejected some of the push keys. -/
  | rejected (pushkeys : List String)

/-- What the calls for one push action return. -/
structure Calls where
  /-- The tables when the badge is computed. -/
  tables : PushTables
  invites : List String
  joins : List String
  /-- `get_event`. -/
  event : Option PushEvent
  /-- Whether `get_context_for_event` returns. -/
  hasContext : Bool
  answer : Answer
  /-- Whether someone else has deleted the pusher when its position is stored. -/
  deleted : Bool
  timeMsec : ℕ

/-- The columns of `pushers` that change. -/
structure PusherRow where
  lastStreamOrdering : ℤ
  lastSuccess : Option ℕ
  failingSince : Option ℕ

structure PusherConfig where
  userId : String
  pushkey : String
  groupUnreadCountByRoom : Bool
  /-- `data["format"] == "event_id_only"`. -/
  eventIdOnly : Bool
  engine : DatabaseEngine
  dbToJson : String → Option (List Json)
  /-- The order of rows with the same stream ordering. -/
  order : RowOrder PushAction

/-- The pusher, its row in the database and what the gateway has taken. -/
structure HttpPusher where
  lastStreamOrdering : ℤ
  maxStreamOrdering : ℤ
  backoffDelay : ℕ
  failingSince : Option ℕ
  /-- The delay of the call of `on_timer` that is scheduled. -/
  timedCall : Option ℕ
  badgeCountLastCall : Option ℕ
  row : Option PusherRow
  sent : List (HttpPushAction × Notification)

/-- A round of the pusher, as the world sees it. -/
structure Round where
  /-- The tables when the receipts are read. -/
  receipts : PushTables
  /-- The tables when the push actions are read. -/
  tables : PushTables
  calls : HttpPushAction → Calls
  /-- The streams of the tokens that `on_new_notifications` is called with. -/
  newTokens : List ℤ

def initialBackoffSec : ℕ := 1

def maxBackoffSec : ℕ := 60 * 60

def giveUpAfterMs : ℕ := 24 * 60 * 60 * 1000

/-- The `limit` of `get_unread_push_actions_for_user_in_range_for_http`. -/
def httpLimit : ℕ := 20

namespace HttpPusher
variable (s : HttpPusher)

/-- While the pusher is processing, `_start_processing` does nothing. -/
def onNewNotifications (stream : ℤ) : HttpPusher :=
  { s with maxStreamOrdering := max stream s.maxStreamOrdering }

def onStop : HttpPusher := { s with timedCall := none }

variable (config : PusherConfig) (calls : Calls) (a : HttpPushAction)

/-- `dispatch_push_event`, and what `_process_one` does with the answer.  Nothing is returned where it
raises. -/
def dispatchPushEvent (event : PushEvent) (tweaks : Dict String Json) (badge : ℕ) (s : HttpPusher) :
    Option (Bool × HttpPusher) :=
  let prio := if event.type = "m.room.encrypted" ∨ (tweaks.lookup "highlight").any Json.truthy ∨
    (tweaks.lookup "sound").any Json.truthy then "high" else "low"
  if !config.eventIdOnly && !calls.hasContext then none
  else
    let notification : Notification :=
      ⟨event.eventId, event.roomId, prio, badge, if config.eventIdOnly then ∅ else tweaks⟩
    match calls.answer with
    | .failed => some (false, s)
    | .rejected pushkeys =>
      let s := { s with sent := s.sent ++ [(a, notification)] }
      let s := if pushkeys = [] then { s with badgeCountLastCall := some badge } else s
      -- `remove_pusher` stops the pusher and deletes its row
      let s := if config.pushkey ∈ pushkeys then { s.onStop with row := none } else s
      some (true, s)

def processOne (s : HttpPusher) : Option (Bool × HttpPusher) :=
  if !a.actions.any (Json.isString "notify") then some (true, s)
  else
    let tweaks := tweaksForActions a.actions
    let badge := getBadgeCount config.engine calls.tables calls.invites calls.joins config.userId
      config.groupUnreadCountByRoom
    match calls.event with
    | none => some (true, s)
    | some event => dispatchPushEvent config calls a event tweaks badge s

/-- `update_pusher_failing_since`, after `self.failing_since` was set. -/
def setFailingSince (failingSince : Option ℕ) : HttpPusher :=
  { s with
    failingSince := failingSince
    row := s.row.map fun row => { row with failingSince := failingSince } }

/-- `if self.failing_since`. -/
def isFailing : Bool := s.failingSince.any (· ≠ 0)

/-- The push action is done with. -/
def advance (a : HttpPushAction) : HttpPusher :=
  { s with backoffDelay := initialBackoffSec, lastStreamOrdering := a.streamOrdering }

/-- `update_pusher_last_stream_ordering_and_success`, and the pusher is not failing any more. -/
def storeSuccess (row : PusherRow) (a : HttpPushAction) (timeMsec : ℕ) : HttpPusher :=
  let s := { s with
    row := some { row with lastStreamOrdering := a.streamOrdering, lastSuccess := some timeMsec } }
  if s.isFailing then s.setFailingSince none else s

/-- The loop of `_unsafe_process`. -/
def processActions (config : PusherConfig) (calls : HttpPushAction → Calls) :
    List HttpPushAction → HttpPusher → HttpPusher
  | [], s => s
  | a :: unprocessed, s =>
    match processOne config (calls a) a s with
    | none => s
    | some (true, s) =>
      let s := s.advance a
      let s := if (calls a).deleted then { s with row := none } else s
      match s.row with
      | none => s.onStop
      | some row =>
        processActions config calls unprocessed (s.storeSuccess row a (calls a).timeMsec)
    | some (false, s) =>
      let s := if !s.isFailing then s.setFailingSince (some (calls a).timeMsec) else s
      if s.failingSince.any fun since => since ≠ 0 ∧ since + giveUpAfterMs < (calls a).timeMsec then
        let s := s.advance a
        let s := if (calls a).deleted then { s with row := none } else s
        match s.row with
        -- `update_pusher_last_stream_ordering` raises if the row is gone
        | none => s
        | some row =>
          let s := { s with row := some { row with lastStreamOrdering := a.streamOrdering } }
          processActions config calls unprocessed (s.setFailingSince none)
      else
        { s with
          timedCall := some s.backoffDelay
          backoffDelay := min (s.backoffDelay * 2) maxBackoffSec }

def unsafeProcess (config : PusherConfig) (round : Round) (s : HttpPusher) : HttpPusher :=
  match getUnreadPushActionsForUserInRangeForHttp config.dbToJson config.order round.receipts round.tables
      config.userId s.lastStreamOrdering s.maxStreamOrdering httpLimit with
  -- exceptions are logged
  | none => s
  | some unprocessed => processActions config round.calls unprocessed s

def runRound (config : PusherConfig) (s : HttpPusher) (round : Round) : HttpPusher :=
  round.newTokens.foldl onNewNotifications (unsafeProcess config round s)

/-- `_process`, for as many rounds as are given: nothing is returned if it has not finished after
them. -/
def process (config : PusherConfig) : List Round → HttpPusher → Option HttpPusher
  | [], _ => none
  | round :: rounds, s =>
    if (s.runRound config round).maxStreamOrdering = s.maxStreamOrdering then
      some (s.runRound config round)
    else process config rounds (s.runRound config round)

end HttpPusher
end Synapse.Push
