import Synapse.Util.Dict
import Synapse.Util.Select

/-!
# Push actions, receipts and summaries

The tables of `synapse/storage/databases/main/event_push_actions.py`.  For every user that an event
notifies, `event_push_actions` has a row.  From time to time the rows are counted into
`event_push_summary`, a row per user, room and thread, up to the stream ordering that is kept in
`event_push_summary_stream_ordering`.  What counts as unread is decided by the read receipts: a push
action is unread if it comes after the user's unthreaded receipts in the room and after their receipts
in its thread.
-/

namespace Synapse.Push

open Synapse.Util List

/-- `MAIN_TIMELINE`, the pseudo-thread of the events that are in no thread. -/
def mainTimeline : String := "main"

/-- `(ReceiptTypes.READ, ReceiptTypes.READ_PRIVATE)`. -/
def readReceiptTypes : List String := ["m.read", "m.read.private"]

/-- The columns of `events` that are read here. -/
structure EventRow where
  roomId : String
  streamOrdering : ℤ

/-- A thread of a room, as one user sees it. -/
structure ThreadKey where
  userId : String
  roomId : String
  threadId : String
deriving DecidableEq

/-- A row of `event_push_actions`. -/
structure PushAction where
  userId : String
  roomId : String
  eventId : String
  threadId : String
  streamOrdering : ℤ
  actions : String
  notif : Bool
  unread : Bool
  highlight : Bool
deriving DecidableEq

def PushAction.key (a : PushAction) : ThreadKey := ⟨a.userId, a.roomId, a.threadId⟩

/-- The two counts of a summary. -/
inductive CountKind where
  | notif
  | unread

/-- The flag of a push action that makes it count. -/
def PushAction.flag : CountKind → PushAction → Bool
  | .notif, a => a.notif
  | .unread, a => a.unread

/-- The columns of a row of `event_push_summary` other than its key. -/
structure Summary where
  notifCount : ℕ
  unreadCount : Option ℕ
  streamOrdering : ℤ
  lastReceiptStreamOrdering : Option ℤ
deriving DecidableEq

abbrev SummaryRow : Type := ThreadKey × Summary

/-- The counts of a row, `COALESCE`d to 0. -/
def Summary.count : CountKind → Summary → ℕ
  | .notif, s => s.notifCount
  | .unread, s => s.unreadCount.getD 0

/-- The unique key of `receipts_linearized`. -/
structure ReceiptKey where
  roomId : String
  receiptType : String
  userId : String
  threadId : Option String
deriving DecidableEq

/-- The other columns of `receipts_linearized`. -/
structure Receipt where
  streamId : ℕ
  eventId : String
  eventStreamOrdering : Option ℤ

structure PushTables where
  /-- `events`, by `event_id`. -/
  events : Dict String EventRow
  receiptsLinearized : Dict ReceiptKey Receipt
  eventPushActions : List PushAction
  eventPushSummary : Dict ThreadKey Summary
  /-- The row of `event_push_summary_stream_ordering`. -/
  rotatedUpto : ℤ
  /-- The row of `event_push_summary_last_receipt_stream_id`. -/
  lastReceiptStreamId : ℕ

variable (t : PushTables)

/-- The stream ordering of an event of the room. -/
def PushTables.eventIn (roomId eventId : String) : Option ℤ :=
  match t.events.lookup eventId with
  | some event => if event.roomId = roomId then some event.streamOrdering else none
  | none => none

/-- A receipt and the stream ordering of its event. -/
structure ReadReceipt where
  threadId : Option String
  eventId : String
  streamOrdering : ℤ

/-- The user's read receipts in a room:
`receipts_linearized INNER JOIN events USING (room_id, event_id)`. -/
def PushTables.readReceipts (userId roomId : String) : List ReadReceipt :=
  t.receiptsLinearized.items.filterMap fun row =>
    if row.1.userId = userId ∧ row.1.roomId = roomId ∧ row.1.receiptType ∈ readReceiptTypes then
      (t.eventIn roomId row.2.eventId).map (⟨row.1.threadId, row.2.eventId, ·⟩)
    else none

/-- A receipt for the thread or for all of the room. -/
def coversThread (threadId : String) (receiptThread : Option String) : Bool :=
  receiptThread = none || receiptThread = some threadId

/-- The stream orderings of the receipts that decide what is unread in the thread. -/
def PushTables.receiptsFor (key : ThreadKey) : List ℤ :=
  ((t.readReceipts key.userId key.roomId).filter fun receipt =>
    coversThread key.threadId receipt.threadId).map ReadReceipt.streamOrdering

/-- The stream ordering comes after all receipts that cover the thread. -/
def PushTables.isUnread (key : ThreadKey) (streamOrdering : ℤ) : Bool :=
  (t.receiptsFor key).all (· < streamOrdering)

variable {t : PushTables}

theorem coversThread_iff {threadId : String} {receiptThread : Option String} :
    coversThread threadId receiptThread = true ↔
      receiptThread = none ∨ receiptThread = some threadId := by
  unfold coversThread
  rw [Bool.or_eq_true, decide_eq_true_iff, decide_eq_true_iff]

theorem mem_readReceipts {userId roomId : String} {receipt : ReadReceipt} :
    receipt ∈ t.readReceipts userId roomId ↔ ∃ receiptType ∈ readReceiptTypes, ∃ row,
      t.receiptsLinearized.lookup ⟨roomId, receiptType, userId, receipt.threadId⟩ = some row ∧
        row.eventId = receipt.eventId ∧ t.eventIn roomId row.eventId = some receipt.streamOrdering := by
  unfold PushTables.readReceipts
  rw [mem_filterMap]
  constructor
  · intro h
    obtain ⟨⟨key, row⟩, hitem, hrow⟩ := h
    obtain ⟨⟨rfl, rfl, htype⟩, hsome⟩ := Option.ite_none_right_eq_some.mp hrow
    obtain ⟨so, hevent, rfl⟩ := Option.map_eq_some_iff.mp hsome
    exact ⟨key.receiptType, htype, row, Dict.mem_items.mp hitem, rfl, hevent⟩
  · intro h
    obtain ⟨receiptType, htype, row, hlookup, heq, hevent⟩ := h
    refine ⟨(⟨roomId, receiptType, userId, receipt.threadId⟩, row), Dict.mem_items.mpr hlookup, ?_⟩
    rw [if_pos ⟨rfl, rfl, htype⟩, hevent, heq]
    rfl

variable {streamOrdering : ℤ} {key : ThreadKey}

theorem mem_receiptsFor :
    streamOrdering ∈ t.receiptsFor key ↔ ∃ receipt ∈ t.readReceipts key.userId key.roomId,
      coversThread key.threadId receipt.threadId = true ∧ receipt.streamOrdering = streamOrdering := by
  unfold PushTables.receiptsFor
  rw [mem_map]
  simp only [mem_filter, and_assoc]

theorem mem_receiptsFor_iff : streamOrdering ∈ t.receiptsFor key ↔ ∃ receipt row,
      t.receiptsLinearized.lookup receipt = some row ∧ receipt.userId = key.userId ∧
        receipt.roomId = key.roomId ∧ receipt.receiptType ∈ readReceiptTypes ∧
        coversThread key.threadId receipt.threadId = true ∧
        t.eventIn key.roomId row.eventId = some streamOrdering := by
  rw [mem_receiptsFor]
  constructor
  · intro h
    obtain ⟨receipt, hmem, hcovers, rfl⟩ := h
    obtain ⟨receiptType, htype, row, hlookup, _, hevent⟩ := mem_readReceipts.mp hmem
    exact ⟨_, row, hlookup, rfl, rfl, htype, hcovers, hevent⟩
  · intro h
    obtain ⟨⟨roomId, receiptType, userId, threadId⟩, row, hlookup, rfl, rfl, htype, hcovers, hevent⟩ := h
    exact ⟨⟨threadId, row.eventId, streamOrdering⟩,
      mem_readReceipts.mpr ⟨receiptType, htype, row, hlookup, rfl, hevent⟩, hcovers, rfl⟩

theorem isUnread_iff :
    t.isUnread key streamOrdering = true ↔ ∀ receipt ∈ t.receiptsFor key, receipt < streamOrdering := by
  unfold PushTables.isUnread
  rw [all_eq_true]
  exact forall₂_congr fun _ _ => decide_eq_true_iff

/-- A push action is unread if it comes after the unthreaded receipts and after those in its thread. -/
theorem isUnread_iff_receipts {userId roomId threadId : String} :
    t.isUnread ⟨userId, roomId, threadId⟩ streamOrdering = true ↔
      (∀ receipt ∈ t.readReceipts userId roomId, receipt.threadId = none →
        receipt.streamOrdering < streamOrdering) ∧
      ∀ receipt ∈ t.readReceipts userId roomId, receipt.threadId = some threadId →
        receipt.streamOrdering < streamOrdering := by
  rw [isUnread_iff]
  constructor
  · intro h
    exact ⟨fun receipt hmem hthread => h _ (mem_receiptsFor.mpr ⟨receipt, hmem,
        coversThread_iff.mpr (.inl hthread), rfl⟩),
      fun receipt hmem hthread => h _ (mem_receiptsFor.mpr ⟨receipt, hmem,
        coversThread_iff.mpr (.inr hthread), rfl⟩)⟩
  · intro h so hso
    obtain ⟨receipt, hmem, hcovers, rfl⟩ := mem_receiptsFor.mp hso
    rcases coversThread_iff.mp hcovers with hthread | hthread
    · exact h.1 receipt hmem hthread
    · exact h.2 receipt hmem hthread

/-! ## Counts -/

/-- Counts of notifications, `notify_count`, `unread_count` and `highlight_count`. -/
structure NotifCounts where
  notifyCount : ℕ := 0
  unreadCount : ℕ := 0
  highlightCount : ℕ := 0
deriving DecidableEq

def NotifCounts.count : CountKind → NotifCounts → ℕ
  | .notif, c => c.notifyCount
  | .unread, c => c.unreadCount

structure RoomNotifCounts where
  mainTimeline : NotifCounts := {}
  /-- By thread. -/
  threads : Dict String NotifCounts := ∅

namespace RoomNotifCounts
variable (c : RoomNotifCounts) (threadId : String)

/-- The counts of a thread; 0 for a thread that is not listed. -/
def thread : NotifCounts :=
  if threadId = Push.mainTimeline then c.mainTimeline else c.threads.getD threadId {}

/-- A change to what `_get_thread` returns. -/
def modify (f : NotifCounts → NotifCounts) : RoomNotifCounts :=
  if threadId = Push.mainTimeline then { c with mainTimeline := f c.mainTimeline }
  else { c with threads := c.threads.insert threadId (f (c.threads.getD threadId {})) }

/-- `counts.notify_count += notif_count; counts.unread_count += unread_count`. -/
def add (notifCount unreadCount : ℕ) : RoomNotifCounts := c.modify threadId fun counts =>
    { counts with
      notifyCount := counts.notifyCount + notifCount
      unreadCount := counts.unreadCount + unreadCount }

theorem thread_modify (c : RoomNotifCounts) (threadId threadId' : String)
    (f : NotifCounts → NotifCounts) : (c.modify threadId f).thread threadId' =
      if threadId' = threadId then f (c.thread threadId') else c.thread threadId' := by
  unfold modify thread
  by_cases hmain : threadId = Push.mainTimeline
  · rw [if_pos hmain, hmain]
    by_cases hmain' : threadId' = Push.mainTimeline
    · rw [if_pos hmain', if_pos hmain', if_pos hmain']
    · rw [if_neg hmain', if_neg hmain', if_neg hmain']
  · rw [if_neg hmain, Dict.getD_insert]
    by_cases heq : threadId' = threadId
    · subst heq
      rw [if_neg hmain, if_neg hmain, if_pos rfl]
    · rw [if_neg heq, if_neg heq]

end RoomNotifCounts

theorem count_empty (kind : CountKind) (threadId : String) :
    (({} : RoomNotifCounts).thread threadId).count kind = 0 := by
  have hthread : ({} : RoomNotifCounts).thread threadId = {} := by
    unfold RoomNotifCounts.thread
    split
    · rfl
    · rfl
  rw [hthread]
  cases kind with
  | notif => rfl
  | unread => rfl

/-- A row `(notif_count, unread_count, thread_id)`. -/
abbrev CountRow := ℕ × ℕ × String

def CountRow.count : CountKind → CountRow → ℕ
  | .notif, row => row.1
  | .unread, row => row.2.1

/-- `SELECT COUNT(CASE WHEN notif = 1 THEN 1 END), COUNT(CASE WHEN unread = 1 THEN 1 END), thread_id …
GROUP BY thread_id`. -/
def countByThread (actions : List PushAction) : List CountRow :=
  (groupBy PushAction.threadId actions).map fun group =>
    (group.2.countP (·.notif), group.2.countP (·.unread), group.1)

/-- `for notif_count, unread_count, thread_id in rows: …`. -/
def RoomNotifCounts.addRows (c : RoomNotifCounts) (rows : List CountRow) : RoomNotifCounts :=
  rows.foldl (fun c row => c.add row.2.2 row.1 row.2.1) c

theorem count_addRows (kind : CountKind) (threadId : String) :
    ∀ (rows : List CountRow) (c : RoomNotifCounts),
      ((c.addRows rows).thread threadId).count kind = (c.thread threadId).count kind +
        ((rows.filter fun row => row.2.2 = threadId).map (CountRow.count kind)).sum
  | [], _ => rfl
  | row :: rows, c => by
    refine (count_addRows kind threadId rows (c.add row.2.2 row.1 row.2.1)).trans ?_
    rw [RoomNotifCounts.add, RoomNotifCounts.thread_modify]
    by_cases heq : threadId = row.2.2
    · rw [if_pos heq, filter_cons_of_pos (by simp [heq]), map_cons, sum_cons, ← Nat.add_assoc]
      cases kind with
      | notif => rfl
      | unread => rfl
    · rw [if_neg heq, filter_cons_of_neg (by simp [Ne.symm heq])]

theorem count_countByThread (kind : CountKind) (q : String → Bool) (actions : List PushAction) :
    (((countByThread actions).filter fun row => q row.2.2).map (CountRow.count kind)).sum =
      actions.countP fun a => a.flag kind && q a.threadId := by
  rw [← sum_countP_groupBy, countByThread, filter_map, map_map]
  cases kind with
  | notif => rfl
  | unread => rfl

theorem mem_countByThread {row : CountRow} {actions : List PushAction} :
    row ∈ countByThread actions ↔ row.2.2 ∈ actions.map PushAction.threadId ∧
      row.1 = (actions.countP fun a => a.notif && a.threadId = row.2.2) ∧
      row.2.1 = actions.countP fun a => a.unread && a.threadId = row.2.2 := by
  unfold countByThread
  rw [mem_map]
  constructor
  · intro h
    obtain ⟨⟨threadId, group⟩, hgroup, rfl⟩ := h
    obtain ⟨hmem, rfl⟩ := mem_groupBy.mp hgroup
    exact ⟨hmem, countP_filter, countP_filter⟩
  · intro h
    obtain ⟨hmem, hnotif, hunread⟩ := h
    refine ⟨_, mem_groupBy.mpr ⟨hmem, rfl⟩, ?_⟩
    rw [countP_filter, countP_filter, ← hnotif, ← hunread]

theorem nodup_map_countByThread (actions : List PushAction) :
    ((countByThread actions).map fun row => row.2.2).Nodup := by
  unfold countByThread
  rw [map_map]
  exact nodup_map_fst_groupBy actions

end Synapse.Push
