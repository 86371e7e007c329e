import Synapse.Push.UnreadCounts
import Synapse.StateGroups.Walks

/-!
# The unread counts of all rooms

`_get_unread_counts_by_room_for_user_txn` counts the notifications of all rooms of a user at once, for
the badge of a push.  It should agree with adding up what `_get_unread_counts_by_receipt_txn` returns
for a room.  Like that one it adds summaries, push actions since the last rotation of the threads that
have one, and all unread push actions of the other threads.  But it remembers the threads of the
summaries without their rooms, and the main timeline is a thread of every room: as soon as one room has
a summary for it, the push actions of the main timeline of all other rooms are only counted since the
last rotation.

Both count the same summaries of a room, so that they agree exactly if each counts as many push actions
that the other does not.  The notifications that are lost by the mix-up of the rooms are the first kind of
`PushTables.overlooked`; the second kind, and `PushTables.overcounted`, need a summary that contradicts
the receipts or the push actions.
-/

namespace Synapse.Push

open Synapse.Util Synapse.StateGroups List

/-! ## The query -/

/-- `MAX(event_stream_ordering)` of the user's receipts in the room for the thread, or of the unthreaded
ones. -/
def PushTables.maxReceipt (t : PushTables) (userId roomId : String) (threadId : Option String) :
    Option ℤ :=
  (t.receiptsLinearized.items.filterMap fun row =>
    if row.1.userId = userId ∧ row.1.roomId = roomId ∧ row.1.receiptType ∈ readReceiptTypes ∧
        row.1.threadId = threadId then
      row.2.eventStreamOrdering
    else none).max?

/-- `GREATEST(a, b)`, which ignores `NULL`s, on Postgres; `MAX(COALESCE(a, 0), COALESCE(b, 0))` on
SQLite. -/
def maxClause : DatabaseEngine → Option ℤ → Option ℤ → Option ℤ
  | .postgres, some a, some b => some (max a b)
  | .postgres, some a, none => some a
  | .postgres, none, b => b
  | .sqlite, a, b => some (max (a.getD 0) (b.getD 0))

/-- The receipts do not cover the stream ordering. -/
def PushTables.isAfterReceipts (t : PushTables) (key : ThreadKey) (streamOrdering : ℤ) : Bool :=
  (t.maxReceipt key.userId key.roomId (some key.threadId)).all (· < streamOrdering) &&
    (t.maxReceipt key.userId key.roomId none).all (· < streamOrdering)

variable (engine : DatabaseEngine) (t : PushTables) (userId : String)

/-- The rows of `event_push_summary` that are used. -/
def PushTables.userSummaries : List SummaryRow := t.eventPushSummary.items.filter fun row =>
    row.1.userId = userId && row.2.notifCount ≠ 0 &&
      (maxClause engine (t.maxReceipt userId row.1.roomId (some row.1.threadId))
        (t.maxReceipt userId row.1.roomId none)).any row.2.isUpToDate

def PushTables.seenThreadIds : List String :=
  (t.userSummaries engine userId).map fun row => row.1.threadId

/-- `for room_id, notif_count in …: room_to_count[room_id] += notif_count`. -/
def addToRooms (roomToCount : Dict String ℕ) (rows : List (String × ℕ)) : Dict String ℕ :=
  rows.foldl (fun d row => d.insert row.1 (d.getD row.1 0 + row.2)) roomToCount

/-- `COUNT(…) … GROUP BY room_id`. -/
def countByRoom (actions : List PushAction) : List (String × ℕ) :=
  (groupBy PushAction.roomId actions).map fun group => (group.1, group.2.countP (·.notif))

/-- `COUNT(…) … GROUP BY room_id, thread_id`. -/
def countByRoomAndThread (actions : List PushAction) : List ((String × String) × ℕ) :=
  (groupBy (fun a : PushAction => (a.roomId, a.threadId)) actions).map fun group =>
    (group.1, group.2.countP (·.notif))

/-- The user's notifications after the receipts. -/
def PushTables.userNotifs (t : PushTables) (userId : String) : List PushAction :=
  t.eventPushActions.filter fun a =>
    a.userId = userId && a.notif && t.isAfterReceipts ⟨userId, a.roomId, a.threadId⟩ a.streamOrdering

def getUnreadCountsByRoomForUserTxn : Dict String ℕ :=
  let seenThreadIds := t.seenThreadIds engine userId
  let roomToCount := addToRooms ∅ ((t.userSummaries engine userId).map fun row =>
    (row.1.roomId, row.2.notifCount))
  let rotated := countByRoomAndThread ((t.userNotifs userId).filter
    fun a => t.rotatedUpto < a.streamOrdering)
  let roomToCount := addToRooms roomToCount ((rotated.filter (·.1.2 ∈ seenThreadIds)).map fun row =>
    (row.1.1, row.2))
  addToRooms roomToCount (countByRoom ((t.userNotifs userId).filter (·.threadId ∉ seenThreadIds)))

variable (c : RoomNotifCounts)

/-- The notifications of the main timeline and of all threads. -/
def RoomNotifCounts.totalNotify : ℕ :=
  c.mainTimeline.notifyCount + (c.threads.items.map fun item => item.2.notifyCount).sum

/-! ## What the queries add up -/

section
variable {t : PushTables}

theorem getD_addToRooms (roomId : String) : ∀ (rows : List (String × ℕ)) (d : Dict String ℕ),
    (addToRooms d rows).getD roomId 0 = d.getD roomId 0 + ((rows.filter (·.1 = roomId)).map Prod.snd).sum
  | [], _ => rfl
  | row :: rows, d => by
    refine (getD_addToRooms roomId rows _).trans ?_
    rw [Dict.getD_insert]
    by_cases heq : roomId = row.1
    · rw [if_pos heq, heq, filter_cons_of_pos (by simp), map_cons, sum_cons, Nat.add_assoc]
    · rw [if_neg heq, filter_cons_of_neg (by simpa using Ne.symm heq)]

theorem sum_countByRoom (roomId : String) (actions : List PushAction) :
    (((countByRoom actions).filter (·.1 = roomId)).map Prod.snd).sum =
      actions.countP fun a => a.notif && a.roomId = roomId := by
  refine Eq.trans ?_ (sum_countP_groupBy (·.notif) (fun room => decide (room = roomId)) actions)
  unfold countByRoom
  rw [filter_map, map_map]
  rfl

theorem sum_countByRoomAndThread (roomId : String) (threads : List String) (actions : List PushAction) :
    (((((countByRoomAndThread actions).filter (·.1.2 ∈ threads)).map fun row => (row.1.1, row.2)).filter
        (·.1 = roomId)).map Prod.snd).sum =
      actions.countP fun a => a.notif && (a.roomId = roomId && a.threadId ∈ threads) := by
  unfold countByRoomAndThread
  rw [filter_map, filter_map, filter_map, map_map, map_map, filter_filter]
  exact sum_countP_groupBy (·.notif) (fun key : String × String =>
    decide (key.1 = roomId) && decide (key.2 ∈ threads)) actions

theorem totalNotify_modify (threadId : String) (f : NotifCounts → NotifCounts) :
    (c.modify threadId f).totalNotify + (c.thread threadId).notifyCount =
      c.totalNotify + (f (c.thread threadId)).notifyCount := by
  unfold RoomNotifCounts.modify RoomNotifCounts.totalNotify RoomNotifCounts.thread
  split
  · dsimp only
    omega
  · dsimp only
    have hsum := Dict.sum_items_insert NotifCounts.notifyCount c.threads threadId
      (f (c.threads.getD threadId {}))
    have hold : ((c.threads.lookup threadId).map NotifCounts.notifyCount).getD 0 =
        (c.threads.getD threadId {}).notifyCount := by
      unfold Dict.getD
      cases c.threads.lookup threadId with
      | none => rfl
      | some counts => rfl
    omega

theorem totalNotify_add (threadId : String) (notifCount unreadCount : ℕ) :
    (c.add threadId notifCount unreadCount).totalNotify = c.totalNotify + notifCount := by
  have hmodify := totalNotify_modify c threadId fun counts =>
    { counts with
      notifyCount := counts.notifyCount + notifCount
      unreadCount := counts.unreadCount + unreadCount }
  unfold RoomNotifCounts.add
  dsimp only at hmodify
  omega

theorem totalNotify_addRows : ∀ (rows : List CountRow) (c : RoomNotifCounts),
    (c.addRows rows).totalNotify = c.totalNotify + (rows.map Prod.fst).sum
  | [], _ => rfl
  | row :: rows, c => by
    refine (totalNotify_addRows rows _).trans ?_
    rw [totalNotify_add, map_cons, sum_cons, Nat.add_assoc]

theorem totalNotify_highlights : ∀ (groups : List (String × List PushAction)) (c : RoomNotifCounts),
    (groups.foldl (fun c group => c.modify group.1 fun counts =>
      { counts with highlightCount := counts.highlightCount + group.2.length }) c).totalNotify =
        c.totalNotify
  | [], _ => rfl
  | group :: groups, c => by
    have hmodify := totalNotify_modify c group.1 fun counts =>
      { counts with highlightCount := counts.highlightCount + group.2.length }
    rw [foldl_cons, totalNotify_highlights groups]
    dsimp only at hmodify
    omega

theorem sum_fst_countByThread (q : String → Bool) (actions : List PushAction) :
    (((countByThread actions).filter fun row => q row.2.2).map Prod.fst).sum =
      actions.countP fun a => a.notif && q a.threadId := count_countByThread .notif q actions

variable {hasEntityChanged : EntityChanged} (order : RowOrder SummaryRow)

/-- The notifications that `_get_unread_counts_by_pos_txn` counts, wherever it adds them. -/
theorem totalNotify_getUnreadCountsByPosTxn (hsound : hasEntityChanged.Sound t)
    (roomId userId : String) (unthreaded : ℤ) :
    (getUnreadCountsByPosTxn order hasEntityChanged t roomId userId unthreaded).totalNotify =
      ((t.usedSummaries userId roomId unthreaded).map fun row => row.2.notifCount).sum +
        (t.actionsIn userId roomId t.rotatedUpto none none).countP (fun a => a.notif &&
          (t.usedSummary unthreaded ⟨userId, roomId, a.threadId⟩).isSome) +
        (t.actionsAfterReceipts userId roomId unthreaded).countP (fun a => a.notif &&
          !(t.usedSummary unthreaded ⟨userId, roomId, a.threadId⟩).isSome) := by
  unfold getUnreadCountsByPosTxn
  rw [getNotifUnreadCountForUserRoom_eq hsound, totalNotify_addRows,
    RoomNotifCounts.foldl_addRotated _ fun row hrow _ => ?_, totalNotify_addRows, totalNotify_highlights,
    totalNotify_addRows, map_map, map_map]
  · -- the order of the summaries does not change the total
    have hsummarised : ∀ threadId, decide (threadId ∈ t.summarisedThreads order userId roomId unthreaded) =
        (t.usedSummary unthreaded ⟨userId, roomId, threadId⟩).isSome := fun threadId => by
      rw [Bool.eq_iff_iff, decide_eq_true_iff, mem_summarisedThreads]
    have hused : ((order.order (t.usedSummaries userId roomId unthreaded)).map
        (Prod.fst ∘ fun row => (row.2.notifCount, row.2.unreadCount.getD 0, row.1.threadId))).sum =
          ((t.usedSummaries userId roomId unthreaded).map fun row => row.2.notifCount).sum :=
      ((order.perm _).map _).sum_eq
    have hrotated := sum_fst_countByThread
      (fun threadId => decide (threadId ∈ t.summarisedThreads order userId roomId unthreaded))
      (t.actionsIn userId roomId t.rotatedUpto none none)
    have hrest := sum_fst_countByThread (fun _ => true) ((t.actionsAfterReceipts userId roomId
      unthreaded).filter (·.threadId ∉ t.summarisedThreads order userId roomId unthreaded))
    rw [filter_true, countP_filter] at hrest
    simp only [hsummarised, decide_not, Bool.and_true] at hrotated hrest
    have hfst : (Prod.fst ∘ fun row : CountRow => (row.1, row.2.1,
        rotatedTarget (t.summarisedThreads order userId roomId unthreaded).getLast? row.2.2)) = Prod.fst :=
      rfl
    have hzero : ({} : RoomNotifCounts).totalNotify = 0 := rfl
    simp only [hsummarised, decide_not]
    rw [hused, hfst, hrest, hrotated, hzero, Nat.zero_add]
  · have hmem := of_decide_eq_true (mem_filter.mp hrow).2
    rw [getLast?_isSome]
    exact ne_nil_of_mem hmem

/-! ## Receipts -/

/-- The events of the user's receipts are known, and `event_stream_ordering` is theirs. -/
def ReceiptsKnown (t : PushTables) (userId : String) : Prop :=
  ∀ receipt row, t.receiptsLinearized.lookup receipt = some row → receipt.userId = userId →
    ∃ streamOrdering, t.eventIn receipt.roomId row.eventId = some streamOrdering ∧
      row.eventStreamOrdering = some streamOrdering

variable {userId roomId : String} {engine : DatabaseEngine}

theorem maxReceipt_eq (h : ReceiptsKnown t userId) (roomId : String) (threadId : Option String) :
    t.maxReceipt userId roomId threadId =
      (((t.readReceipts userId roomId).filter (·.threadId = threadId)).map
        ReadReceipt.streamOrdering).max? := by
  unfold PushTables.maxReceipt PushTables.readReceipts
  congr 1
  rw [filter_filterMap, map_filterMap]
  refine filterMap_congr fun row hrow => ?_
  by_cases hkey : row.1.userId = userId ∧ row.1.roomId = roomId ∧ row.1.receiptType ∈ readReceiptTypes
  · obtain ⟨huser, hroom, htype⟩ := hkey
    obtain ⟨so, hevent, hso⟩ := h row.1 row.2 (Dict.mem_items.mp hrow) huser
    rw [hroom] at hevent
    by_cases hthread : row.1.threadId = threadId
    · rw [if_pos ⟨huser, hroom, htype, hthread⟩, if_pos ⟨huser, hroom, htype⟩, hevent, hso]
      simp [Option.filter, hthread]
    · rw [if_neg fun hkey => hthread hkey.2.2.2, if_pos ⟨huser, hroom, htype⟩, hevent]
      simp [Option.filter, hthread]
  · rw [if_neg fun hkey' => hkey ⟨hkey'.1, hkey'.2.1, hkey'.2.2.1⟩, if_neg hkey]
    rfl

section
variable (h : ReceiptsKnown t userId) {threadId : Option String}
include h

theorem maxReceipt_eq_none_iff : t.maxReceipt userId roomId threadId = none ↔
    ∀ receipt ∈ t.readReceipts userId roomId, receipt.threadId ≠ threadId := by
  rw [maxReceipt_eq h, max?_eq_none_iff, map_eq_nil_iff, filter_eq_nil_iff]
  simp

theorem maxReceipt_eq_some_iff {latest : ℤ} : t.maxReceipt userId roomId threadId = some latest ↔
    (∃ receipt ∈ t.readReceipts userId roomId, receipt.threadId = threadId ∧
        receipt.streamOrdering = latest) ∧
      ∀ receipt ∈ t.readReceipts userId roomId, receipt.threadId = threadId →
        receipt.streamOrdering ≤ latest := by
  rw [maxReceipt_eq h, max?_eq_some_iff]
  simp only [mem_map, mem_filter, decide_eq_true_eq, and_assoc, forall_exists_index, and_imp]
  exact and_congr_right fun _ => ⟨fun h r hr ht => h _ r hr ht rfl, fun h _ r hr ht heq => heq ▸ h r hr ht⟩

theorem maxReceipt_all_iff {bound : ℤ} : (t.maxReceipt userId roomId threadId).all (· < bound) = true ↔
      ∀ receipt ∈ t.readReceipts userId roomId, receipt.threadId = threadId →
        receipt.streamOrdering < bound := by
  cases hmax : t.maxReceipt userId roomId threadId with
  | none =>
    refine iff_of_true rfl fun receipt hmem hthread => ?_
    exact absurd hthread ((maxReceipt_eq_none_iff h).mp hmax receipt hmem)
  | some latest =>
    obtain ⟨⟨receipt, hmem, hthread, rfl⟩, hle⟩ := (maxReceipt_eq_some_iff h).mp hmax
    rw [Option.all_some, decide_eq_true_iff]
    constructor
    · exact fun hlt receipt' hmem' hthread' => lt_of_le_of_lt (hle receipt' hmem' hthread') hlt
    · exact fun hall => hall receipt hmem hthread

end

theorem isAfterReceipts_eq (h : ReceiptsKnown t userId) (roomId threadId : String) (bound : ℤ) :
    t.isAfterReceipts ⟨userId, roomId, threadId⟩ bound = t.isUnread ⟨userId, roomId, threadId⟩ bound := by
  unfold PushTables.isAfterReceipts
  rw [Bool.eq_iff_iff, Bool.and_eq_true, maxReceipt_all_iff h, maxReceipt_all_iff h,
    isUnread_iff_receipts, and_comm]

variable {receipt : ReadReceipt} (h : ReceiptsKnown t userId)
  (hlast : IsLastUnthreaded t userId roomId receipt) (hpos : engine = .sqlite → 0 ≤ receipt.streamOrdering)
include h hlast hpos

/-- With an unthreaded receipt, the receipt that a summary is compared with is the latest one that covers
the thread. -/
theorem maxClause_eq (threadId : String) :
    maxClause engine (t.maxReceipt userId roomId (some threadId)) (t.maxReceipt userId roomId none) =
      some (t.latestReceipt userId roomId receipt.streamOrdering threadId) := by
  obtain ⟨hmem, hle⟩ := hlast.latestReceipt_spec threadId
  have hunthreaded := (maxReceipt_eq_some_iff h).mpr
    ⟨⟨receipt, hlast.mem, hlast.unthreaded, rfl⟩, hlast.latest⟩
  have hge := hle _ (mem_receiptsFor.mpr
    ⟨receipt, hlast.mem, coversThread_iff.mpr (.inl hlast.unthreaded), rfl⟩)
  obtain ⟨receipt', hmem', hcovers, heq⟩ := mem_receiptsFor.mp hmem
  rw [hunthreaded]
  cases hmax : t.maxReceipt userId roomId (some threadId) with
  | none =>
    -- the latest receipt is an unthreaded one
    have hthread := (coversThread_iff.mp hcovers).resolve_right
      ((maxReceipt_eq_none_iff h).mp hmax receipt' hmem')
    have hle' := hlast.latest receipt' hmem' hthread
    rw [heq] at hle'
    have hlatest := le_antisymm hge hle'
    cases engine with
    | postgres => exact congrArg some hlatest
    | sqlite =>
      show some (max 0 receipt.streamOrdering) = _
      rw [max_eq_right (hpos rfl)]
      exact congrArg some hlatest
  | some latest =>
    obtain ⟨⟨receipt'', hmem'', hthread'', rfl⟩, hle'⟩ := (maxReceipt_eq_some_iff h).mp hmax
    have hmax' : max receipt''.streamOrdering receipt.streamOrdering =
        t.latestReceipt userId roomId receipt.streamOrdering threadId := by
      refine le_antisymm (max_le (hle _ (mem_receiptsFor.mpr ⟨receipt'', hmem'',
        coversThread_iff.mpr (.inr hthread''), rfl⟩)) hge) ?_
      rw [← heq]
      rcases coversThread_iff.mp hcovers with hthread | hthread
      · exact le_max_of_le_right (hlast.latest receipt' hmem' hthread)
      · exact le_max_of_le_left (hle' receipt' hmem' hthread)
    cases engine with
    | postgres => exact congrArg some hmax'
    | sqlite => exact congrArg some hmax'

/-! ## When they agree -/

/-- The user's notifications in the room. -/
def PushTables.roomNotifs (t : PushTables) (userId roomId : String) : List PushAction :=
  t.eventPushActions.filter fun a => a.userId = userId && a.roomId = roomId && a.notif

/-- The thread has a summary that is up to date and counts something. -/
def PushTables.Summarised (t : PushTables) (key : ThreadKey) : Prop :=
  ∃ s ∈ t.eventPushSummary.lookup key,
    t.IsUpToDate key s ∧ (s.notifCount ≠ 0 ∨ s.unreadCount.getD 0 ≠ 0)

instance (t : PushTables) (key : ThreadKey) : Decidable (t.Summarised key) :=
  inferInstanceAs (Decidable (∃ s ∈ _, _))

/-- In some room of the user, a thread of that name has a summary that is up to date and counts
notifications. -/
def PushTables.NamedBySummary (t : PushTables) (userId threadId : String) : Prop :=
  ∃ row ∈ t.eventPushSummary.items, row.1.userId = userId ∧ row.1.threadId = threadId ∧
    row.2.notifCount ≠ 0 ∧ t.IsUpToDate row.1 row.2

instance (t : PushTables) (userId threadId : String) : Decidable (t.NamedBySummary userId threadId) :=
  inferInstanceAs (Decidable (∃ row ∈ t.eventPushSummary.items, _))

def PushTables.HasUnthreaded (t : PushTables) (userId roomId : String) : Prop :=
  ∃ receipt ∈ t.readReceipts userId roomId, receipt.threadId = none

omit h hlast hpos in
theorem exists_getLastUnthreadedReceipt (hroom : t.HasUnthreaded userId roomId) :
    ∃ receipt, getLastUnthreadedReceiptForUserTxn t userId roomId = some receipt := by
  obtain ⟨receipt, hmem, hthread⟩ := hroom
  refine Option.ne_none_iff_exists'.mp fun hnone => ?_
  have hin : receipt ∈ (t.readReceipts userId roomId).filter (·.threadId = none) :=
    mem_filter.mpr ⟨hmem, decide_eq_true hthread⟩
  rw [← mem_insertionSort fun receipt receipt' : ReadReceipt =>
    receipt'.streamOrdering ≤ receipt.streamOrdering, head?_eq_none_iff.mp hnone] at hin
  exact not_mem_nil hin

omit h hpos in
theorem summarised_iff (threadId : String) : t.Summarised ⟨userId, roomId, threadId⟩ ↔
    (t.usedSummary receipt.streamOrdering ⟨userId, roomId, threadId⟩).isSome = true := by
  unfold PushTables.Summarised PushTables.usedSummary
  rw [Option.isSome_iff_exists]
  refine exists_congr fun s => ?_
  rw [Option.filter_eq_some_iff, isUpToDate_iff hlast, Bool.and_eq_true, Bool.or_eq_true,
    decide_eq_true_iff, decide_eq_true_iff]
  rfl

omit h hpos in
/-- The notifications of a room that `_get_unread_counts_by_pos_txn` counts. -/
theorem totalNotify_eq (hsound : hasEntityChanged.Sound t) :
    (getUnreadCountsByPosTxn order hasEntityChanged t roomId userId receipt.streamOrdering).totalNotify =
      ((t.usedSummaries userId roomId receipt.streamOrdering).map fun row => row.2.notifCount).sum +
        (t.roomNotifs userId roomId).countP fun a =>
          if decide (t.Summarised a.key) then decide (t.rotatedUpto < a.streamOrdering)
          else t.isUnread a.key a.streamOrdering := by
  rw [totalNotify_getUnreadCountsByPosTxn order hsound, Nat.add_assoc, ← countP_add_countP]
  congr 2
  all_goals
    simp only [PushTables.actionsIn, PushTables.actionsAfterReceipts, PushTables.roomNotifs, countP_filter]
    refine countP_congr fun a _ => ?_
    by_cases hroom : a.userId = userId ∧ a.roomId = roomId
    · obtain ⟨rfl, rfl⟩ := hroom
      simp only [PushAction.key, Bool.and_eq_true, Bool.not_eq_true', Bool.not_eq_true, decide_eq_true_eq,
        decide_eq_false_iff_not, Option.all_none, hlast.latestReceipt_lt_iff, summarised_iff hlast]
      tauto
    · simp only [Bool.and_eq_true, decide_eq_true_eq, Option.all_none]
      tauto

theorem sum_userSummaries :
    ((((t.userSummaries engine userId).map fun row => (row.1.roomId, row.2.notifCount)).filter
        (·.1 = roomId)).map Prod.snd).sum =
      ((t.usedSummaries userId roomId receipt.streamOrdering).map fun row => row.2.notifCount).sum := by
  unfold PushTables.userSummaries PushTables.usedSummaries
  rw [filter_map, map_map, filter_filter]
  refine sum_filter_congr fun row _ hne => ?_
  have hnotif : row.2.notifCount ≠ 0 := hne
  simp only [Function.comp, ne_eq, hnotif, not_false_eq_true, decide_true, Bool.and_true, Bool.true_or]
  by_cases hroom : row.1.roomId = roomId
  · subst hroom
    rw [maxClause_eq h hlast hpos, Option.any_some]
    simp
  · simp [hroom]

omit hlast hpos in
/-- The threads that are seen, if the user has an unthreaded receipt in every room with a summary. -/
theorem mem_seenThreadIds
    (hrooms : ∀ row ∈ t.eventPushSummary.items, row.1.userId = userId → t.HasUnthreaded userId row.1.roomId)
    (hpos : engine = .sqlite → ∀ roomId receipt, IsLastUnthreaded t userId roomId receipt →
      0 ≤ receipt.streamOrdering) (threadId : String) :
    threadId ∈ t.seenThreadIds engine userId ↔ t.NamedBySummary userId threadId := by
  -- in the room of a row, the receipt that the query compares with is the latest one
  have hvalid : ∀ row ∈ t.eventPushSummary.items, row.1.userId = userId →
      ((maxClause engine (t.maxReceipt userId row.1.roomId (some row.1.threadId))
        (t.maxReceipt userId row.1.roomId none)).any row.2.isUpToDate = true ↔
          t.IsUpToDate row.1 row.2) := by
    intro row hrow huser
    obtain ⟨last, hget⟩ := exists_getLastUnthreadedReceipt (hrooms row hrow huser)
    have hlast := isLastUnthreaded_of_getLast hget
    rw [maxClause_eq h hlast (fun hengine => hpos hengine _ last hlast), Option.any_some,
      ← isUpToDate_iff hlast, ← huser]
  unfold PushTables.seenThreadIds PushTables.userSummaries PushTables.NamedBySummary
  rw [mem_map]
  refine exists_congr fun row => ?_
  rw [mem_filter, Bool.and_eq_true, Bool.and_eq_true, decide_eq_true_iff, decide_eq_true_iff]
  constructor
  · rintro ⟨⟨hrow, ⟨huser, hnotif⟩, hany⟩, hthread⟩
    exact ⟨hrow, huser, hthread, hnotif, (hvalid row hrow huser).mp hany⟩
  · rintro ⟨hrow, huser, hthread, hnotif, hdate⟩
    exact ⟨⟨hrow, ⟨huser, hnotif⟩, (hvalid row hrow huser).mpr hdate⟩, hthread⟩

/-- The notifications of a room that `_get_unread_counts_by_room_for_user_txn` counts. -/
theorem getD_getUnreadCountsByRoomForUserTxn :
    (getUnreadCountsByRoomForUserTxn engine t userId).getD roomId 0 =
      ((t.usedSummaries userId roomId receipt.streamOrdering).map fun row => row.2.notifCount).sum +
        (t.roomNotifs userId roomId).countP fun a =>
          if decide (a.threadId ∈ t.seenThreadIds engine userId) then
            t.isUnread a.key a.streamOrdering && decide (t.rotatedUpto < a.streamOrdering)
          else t.isUnread a.key a.streamOrdering := by
  unfold getUnreadCountsByRoomForUserTxn
  rw [getD_addToRooms, getD_addToRooms, getD_addToRooms, sum_userSummaries h hlast hpos,
    sum_countByRoomAndThread, sum_countByRoom, ← countP_add_countP, Nat.add_assoc]
  have hempty : Dict.getD ∅ roomId 0 = 0 := rfl
  rw [hempty, Nat.zero_add]
  congr 2
  all_goals
    unfold PushTables.userNotifs PushTables.roomNotifs
    rw [filter_filter, countP_filter, countP_filter]
    refine countP_congr fun a _ => ?_
    by_cases huser : a.userId = userId
    · subst huser
      simp only [PushAction.key, Bool.and_eq_true, decide_eq_true_eq, isAfterReceipts_eq h,
        Bool.not_eq_true', decide_eq_false_iff_not]
      tauto
    · simp only [Bool.and_eq_true, decide_eq_true_eq]
      tauto

/-- The notifications of the room that only `_get_unread_counts_by_pos_txn` counts.  They are the unread
ones up to the last rotation in a thread without a summary, if there is one for a thread of the same name
in another room; and, where there is a summary, the ones after the last rotation that have been read. -/
def PushTables.overlooked (t : PushTables) (userId roomId : String) : List PushAction :=
  (t.roomNotifs userId roomId).filter fun a =>
    if t.Summarised a.key then t.rotatedUpto < a.streamOrdering && !t.isUnread a.key a.streamOrdering
    else
      t.isUnread a.key a.streamOrdering && t.NamedBySummary userId a.threadId &&
        a.streamOrdering ≤ t.rotatedUpto

/-- The notifications of the room that only `_get_unread_counts_by_room_for_user_txn` counts: the unread
ones up to the last rotation in a thread with a summary that has no notifications. -/
def PushTables.overcounted (t : PushTables) (userId roomId : String) : List PushAction :=
  (t.roomNotifs userId roomId).filter fun a =>
    t.Summarised a.key && ¬ t.NamedBySummary userId a.threadId &&
      t.isUnread a.key a.streamOrdering && a.streamOrdering ≤ t.rotatedUpto

/-- In a room they agree exactly if each counts as many notifications that the other does not. -/
theorem roomCounts_agree_iff (order : RowOrder SummaryRow)
    (hsound : hasEntityChanged.Sound t)
    (hseen : ∀ threadId, threadId ∈ t.seenThreadIds engine userId ↔ t.NamedBySummary userId threadId) :
    (getUnreadCountsByRoomForUserTxn engine t userId).getD roomId 0 =
        (getUnreadCountsByPosTxn order hasEntityChanged t roomId userId
          receipt.streamOrdering).totalNotify ↔
      (t.overcounted userId roomId).length = (t.overlooked userId roomId).length := by
  have hover : ∀ used seen unread after : Bool,
      ((if seen then unread && after else unread) && !(if used then after else unread)) =
        (used && !seen && unread && !after) := by decide
  have hunder : ∀ used seen unread after : Bool,
      ((if used then after else unread) && !(if seen then unread && after else unread)) =
        (if used then after && !unread else unread && seen && !after) := by decide
  have hle : ∀ a : PushAction, decide (a.streamOrdering ≤ t.rotatedUpto) =
      !decide (t.rotatedUpto < a.streamOrdering) := fun a => by
    rw [← decide_not, decide_eq_decide, not_lt]
  rw [getD_getUnreadCountsByRoomForUserTxn h hlast hpos, totalNotify_eq order hlast hsound,
    Nat.add_left_cancel_iff, countP_eq_countP_iff]
  unfold PushTables.overcounted PushTables.overlooked
  rw [← countP_eq_length_filter, ← countP_eq_length_filter]
  simp only [hseen, hover, hunder, hle, decide_not]
  simp only [decide_eq_true_eq]

end

/-- Alice has read a room with a summary for a thread, and another one up to the last but one event of
the main timeline; their receipt there has not been handled. -/
def twoRooms (threadId : String) : PushTables where
  events := (((∅ : Dict String EventRow).insert "$1" ⟨"!a", 1⟩).insert "$5" ⟨"!b", 5⟩).insert "$6"
    ⟨"!b", 6⟩
  receiptsLinearized := ((∅ : Dict ReceiptKey Receipt).insert ⟨"!a", "m.read", "@alice", none⟩
    ⟨1, "$1", some 1⟩).insert ⟨"!b", "m.read", "@alice", none⟩ ⟨4, "$5", some 5⟩
  eventPushActions := [⟨"@alice", "!b", "$6", mainTimeline, 6, "", true, true, false⟩]
  eventPushSummary := ((∅ : Dict ThreadKey Summary).insert ⟨"@alice", "!a", threadId⟩
    ⟨1, some 1, 3, none⟩).insert ⟨"@alice", "!b", mainTimeline⟩ ⟨2, some 2, 6, some 4⟩
  rotatedUpto := 6
  lastReceiptStreamId := 3

theorem twoRooms_receiptsKnown (threadId : String) : ReceiptsKnown (twoRooms threadId) "@alice" := by
  intro receipt row hlookup _
  rcases Dict.lookup_insert_cases hlookup with ⟨rfl, rfl⟩ | ⟨_, hlookup⟩
  · exact ⟨5, by rfl, rfl⟩
  · rcases Dict.lookup_insert_cases hlookup with ⟨rfl, rfl⟩ | ⟨_, hlookup⟩
    · exact ⟨1, by rfl, rfl⟩
    · exact nomatch hlookup

theorem twoRooms_hasUnthreaded {roomId : String} :
    (twoRooms "$1").HasUnthreaded "@alice" roomId ↔ roomId = "!b" ∨ roomId = "!a" := by
  constructor
  · rintro ⟨receipt, hmem, -⟩
    obtain ⟨receiptType, _, row, hlookup, -⟩ := mem_readReceipts.mp hmem
    rcases Dict.lookup_insert_cases hlookup with ⟨hkey, -⟩ | ⟨_, hlookup⟩
    · exact .inl (ReceiptKey.mk.inj hkey).1
    · rcases Dict.lookup_insert_cases hlookup with ⟨hkey, -⟩ | ⟨_, hlookup⟩
      · exact .inr (ReceiptKey.mk.inj hkey).1
      · exact nomatch hlookup
  · rintro (rfl | rfl)
    · exact ⟨⟨none, "$5", 5⟩, (isLastUnthreaded_of_getLast (by rfl)).mem, rfl⟩
    · exact ⟨⟨none, "$1", 1⟩, (isLastUnthreaded_of_getLast (by rfl)).mem, rfl⟩

end Synapse.Push
