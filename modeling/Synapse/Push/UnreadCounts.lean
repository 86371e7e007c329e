import Synapse.Push.Tables

/-!
# The unread counts of a room

`_get_unread_counts_by_pos_txn` adds up three things: the rows of `event_push_summary` that are up to
date with the receipts, for the threads that have such a row the push actions that have not been
rotated yet, and for the other threads all push actions after the receipts.

The second part has a slip: the counts of the main timeline are added to `counts`, which at that point
is not those of the main timeline but those of the last thread that the first query returned.  It does
not show if the main timeline is returned last.
-/

namespace Synapse.Push

open Synapse.Util List

/-- `_events_stream_cache.has_entity_changed`: whether the room may have had events since. -/
abbrev EntityChanged := String → ℤ → Bool

/-- The cache knows of every event with push actions. -/
def EntityChanged.Sound (hasEntityChanged : EntityChanged) (t : PushTables) : Prop :=
  ∀ a ∈ t.eventPushActions, ∀ streamOrdering, streamOrdering < a.streamOrdering →
    hasEntityChanged a.roomId streamOrdering = true

variable (t : PushTables) (userId roomId : String)

/-- The user's push actions in the room after a stream ordering, up to another one, in a thread. -/
def PushTables.actionsIn (after : ℤ) (upto : Option ℤ) (threadId : Option String) : List PushAction :=
  t.eventPushActions.filter fun a =>
    a.userId = userId && a.roomId = roomId && decide (after < a.streamOrdering) &&
      upto.all (a.streamOrdering ≤ ·) && threadId.all (a.threadId = ·)

def getNotifUnreadCountForUserRoom (hasEntityChanged : EntityChanged) (t : PushTables)
    (roomId userId : String) (streamOrdering : ℤ) (maxStreamOrdering : Option ℤ)
    (threadId : Option String) : List CountRow :=
  if ¬ hasEntityChanged roomId streamOrdering then []
  else if maxStreamOrdering.any (· ≤ streamOrdering) then []
  else countByThread (t.actionsIn userId roomId streamOrdering maxStreamOrdering threadId)

/-- `MAX(stream_ordering)` of the user's receipts in the thread that come after `after`. -/
def PushTables.threadedReceipt (after : ℤ) (threadId : String) : Option ℤ :=
  (((t.readReceipts userId roomId).filter fun receipt =>
    receipt.threadId = some threadId && decide (after < receipt.streamOrdering)).map
      ReadReceipt.streamOrdering).max?

/-- `COALESCE(threaded_receipt_stream_ordering, ?)`. -/
def PushTables.latestReceipt (unthreaded : ℤ) (threadId : String) : ℤ :=
  (t.threadedReceipt userId roomId unthreaded threadId).getD unthreaded

/-- The summary has been updated for the receipt. -/
def Summary.isUpToDate (s : Summary) (receipt : ℤ) : Bool :=
  match s.lastReceiptStreamOrdering with
  | none => receipt < s.streamOrdering
  | some last => last = receipt

/-- The rows of `event_push_summary` that are used. -/
def PushTables.usedSummaries (unthreaded : ℤ) : List SummaryRow :=
  t.eventPushSummary.items.filter fun row =>
    row.1.roomId = roomId && row.1.userId = userId &&
      row.2.isUpToDate (t.latestReceipt userId roomId unthreaded row.1.threadId) &&
      (row.2.notifCount ≠ 0 || row.2.unreadCount.getD 0 ≠ 0)

/-- The threads of the summaries that are used, in the order in which they are returned. -/
def PushTables.summarisedThreads (t : PushTables) (order : RowOrder SummaryRow)
    (userId roomId : String) (unthreaded : ℤ) : List String :=
  (order.order (t.usedSummaries userId roomId unthreaded)).map fun row => row.1.threadId

def PushTables.actionsAfterReceipts (unthreaded : ℤ) : List PushAction :=
  t.eventPushActions.filter fun a =>
    a.userId = userId && a.roomId = roomId &&
      decide (t.latestReceipt userId roomId unthreaded a.threadId < a.streamOrdering)

/-- The counts since the last rotation, for a thread that was summarised.  `lastThread` is the thread
whose counts `counts` is. -/
def RoomNotifCounts.addRotated (lastThread : Option String) (c : RoomNotifCounts) (row : CountRow) :
    RoomNotifCounts :=
  if row.2.2 = Push.mainTimeline then
    match lastThread with
    | some threadId => c.add threadId row.1 row.2.1
    | none => c
  else
    match c.threads.lookup row.2.2 with
    | some counts =>
      let counts := { counts with
        notifyCount := counts.notifyCount + row.1
        unreadCount := counts.unreadCount + row.2.1 }
      { c with threads := c.threads.insert row.2.2 counts }
    | none => { c with threads := c.threads.insert row.2.2 ⟨row.1, row.2.1, 0⟩ }

variable (order : RowOrder SummaryRow)

def getUnreadCountsByPosTxn (hasEntityChanged : EntityChanged) (t : PushTables)
    (roomId userId : String) (unthreaded : ℤ) : RoomNotifCounts :=
  let summaries := order.order (t.usedSummaries userId roomId unthreaded)
  let summarisedThreads := t.summarisedThreads order userId roomId unthreaded
  let counts := RoomNotifCounts.addRows {} (summaries.map fun row =>
    (row.2.notifCount, row.2.unreadCount.getD 0, row.1.threadId))
  let highlights := (t.actionsAfterReceipts userId roomId unthreaded).filter (·.highlight)
  let counts := (groupBy PushAction.threadId highlights).foldl (fun c group =>
    c.modify group.1 fun counts =>
      { counts with highlightCount := counts.highlightCount + group.2.length }) counts
  let unreadCounts :=
    getNotifUnreadCountForUserRoom hasEntityChanged t roomId userId t.rotatedUpto none none
  let counts := (unreadCounts.filter (·.2.2 ∈ summarisedThreads)).foldl
    (RoomNotifCounts.addRotated (summarisedThreads.getLast?)) counts
  let rest := (t.actionsAfterReceipts userId roomId unthreaded).filter
    (·.threadId ∉ summarisedThreads)
  counts.addRows (countByThread rest)

/-- The latest unthreaded receipt: `ORDER BY stream_ordering DESC LIMIT 1`. -/
def getLastUnthreadedReceiptForUserTxn : Option ReadReceipt :=
  (((t.readReceipts userId roomId).filter (·.threadId = none)).insertionSort
    fun receipt receipt' => receipt'.streamOrdering ≤ receipt.streamOrdering).head?

/-- `joined` is the stream ordering of the user's membership event in the room. -/
def getUnreadCountsByReceiptTxn (hasEntityChanged : EntityChanged) (t : PushTables) (joined : ℤ)
    (roomId userId : String) : RoomNotifCounts :=
  match getLastUnthreadedReceiptForUserTxn t userId roomId with
  | some receipt =>
    getUnreadCountsByPosTxn order hasEntityChanged t roomId userId receipt.streamOrdering
  | none => getUnreadCountsByPosTxn order hasEntityChanged t roomId userId joined

/-! ## What is counted -/

section
variable {t : PushTables} {hasEntityChanged : EntityChanged}

theorem getNotifUnreadCountForUserRoom_eq (hsound : hasEntityChanged.Sound t) (roomId userId : String)
    (streamOrdering : ℤ) (maxStreamOrdering : Option ℤ) (threadId : Option String) :
    getNotifUnreadCountForUserRoom hasEntityChanged t roomId userId streamOrdering maxStreamOrdering
        threadId =
      countByThread (t.actionsIn userId roomId streamOrdering maxStreamOrdering threadId) := by
  have hnil : t.actionsIn userId roomId streamOrdering maxStreamOrdering threadId = [] →
      [] = countByThread (t.actionsIn userId roomId streamOrdering maxStreamOrdering threadId) :=
    fun hnil => by rw [hnil]; rfl
  unfold getNotifUnreadCountForUserRoom
  split
  next hunchanged =>
    -- the room has no push actions after the stream ordering
    refine hnil (filter_eq_nil_iff.mpr fun a hmem hin => ?_)
    simp only [Bool.and_eq_true, decide_eq_true_eq] at hin
    obtain ⟨⟨⟨⟨_, rfl⟩, hafter⟩, _⟩, _⟩ := hin
    exact hunchanged (hsound a hmem _ hafter)
  · split
    next hempty =>
      refine hnil (filter_eq_nil_iff.mpr fun a hmem hin => ?_)
      cases maxStreamOrdering with
      | none => exact nomatch hempty
      | some upto =>
        simp only [Bool.and_eq_true, decide_eq_true_eq, Option.all_some, Option.any_some] at hin hempty
        omega
    · rfl

/-- Where the counts since the last rotation really go. -/
def rotatedTarget (lastThread : Option String) (threadId : String) : String :=
  if threadId = mainTimeline then lastThread.getD mainTimeline else threadId

variable {lastThread : Option String}

theorem RoomNotifCounts.addRotated_eq {row : CountRow}
    (hlast : row.2.2 = Push.mainTimeline → lastThread.isSome) (c : RoomNotifCounts) :
    c.addRotated lastThread row = c.add (rotatedTarget lastThread row.2.2) row.1 row.2.1 := by
  unfold addRotated rotatedTarget
  split
  next hmain =>
    obtain ⟨threadId, rfl⟩ := Option.isSome_iff_exists.mp (hlast hmain)
    rfl
  next hmain =>
    unfold add modify Dict.getD
    rw [if_neg hmain]
    split
    next counts hcounts => rw [hcounts]; rfl
    next hcounts =>
      rw [hcounts, Option.getD_none]
      dsimp only
      rw [Nat.zero_add, Nat.zero_add]

theorem RoomNotifCounts.foldl_addRotated : ∀ {rows : List CountRow}
    (c : RoomNotifCounts), (∀ row ∈ rows, row.2.2 = Push.mainTimeline → lastThread.isSome) →
    rows.foldl (addRotated lastThread) c =
      c.addRows (rows.map fun row => (row.1, row.2.1, rotatedTarget lastThread row.2.2))
  | [], _, _ => rfl
  | row :: rows, c, h => by
    rw [foldl_cons, addRotated_eq (h row mem_cons_self)]
    exact foldl_addRotated _ fun row' hmem => h row' (mem_cons_of_mem _ hmem)

theorem count_highlights (kind : CountKind) (threadId : String) :
    ∀ (groups : List (String × List PushAction)) (c : RoomNotifCounts),
      ((groups.foldl (fun c group => c.modify group.1 fun counts =>
        { counts with highlightCount := counts.highlightCount + group.2.length }) c).thread
          threadId).count kind = (c.thread threadId).count kind
  | [], _ => rfl
  | group :: groups, c => by
    rw [foldl_cons, count_highlights kind threadId groups, RoomNotifCounts.thread_modify]
    split
    · cases kind with
      | notif => rfl
      | unread => rfl
    · rfl

/-- The summary of a thread, if it is used. -/
def PushTables.usedSummary (t : PushTables) (unthreaded : ℤ) (key : ThreadKey) : Option Summary :=
  (t.eventPushSummary.lookup key).filter fun s =>
    s.isUpToDate (t.latestReceipt key.userId key.roomId unthreaded key.threadId) &&
      (s.notifCount ≠ 0 || s.unreadCount.getD 0 ≠ 0)

variable {userId roomId : String} {unthreaded : ℤ}

theorem mem_usedSummaries {key : ThreadKey} {s : Summary} :
    (key, s) ∈ t.usedSummaries userId roomId unthreaded ↔
      key.userId = userId ∧ key.roomId = roomId ∧ t.usedSummary unthreaded key = some s := by
  unfold PushTables.usedSummaries PushTables.usedSummary
  rw [mem_filter, Dict.mem_items, Option.filter_eq_some_iff]
  simp only [Bool.and_eq_true, decide_eq_true_eq]
  constructor
  · rintro ⟨hlookup, ⟨⟨rfl, rfl⟩, hdate⟩, hne⟩
    exact ⟨rfl, rfl, hlookup, hdate, hne⟩
  · rintro ⟨rfl, rfl, hlookup, hdate, hne⟩
    exact ⟨hlookup, ⟨⟨rfl, rfl⟩, hdate⟩, hne⟩

theorem filter_usedSummaries (userId roomId : String) (unthreaded : ℤ) (threadId : String) :
    ((t.usedSummaries userId roomId unthreaded).filter fun row => row.1.threadId = threadId) =
      (t.usedSummary unthreaded ⟨userId, roomId, threadId⟩).toList.map
        (⟨userId, roomId, threadId⟩, ·) := by
  have hfilter : ∀ s : Option Summary, ∀ p, ∀ key : ThreadKey,
      (s.toList.map (key, ·)).filter (fun row => p row.2) = (s.filter p).toList.map (key, ·) := by
    intro s p key
    cases s with
    | none => rfl
    | some s => cases hp : p s <;> simp [hp, Option.filter]
  unfold PushTables.usedSummary
  rw [← hfilter, ← Dict.filter_items_key, PushTables.usedSummaries, filter_filter, filter_filter]
  refine filter_congr fun row _ => ?_
  obtain ⟨⟨userId', roomId', threadId'⟩, s⟩ := row
  rw [Bool.eq_iff_iff]
  simp only [Bool.and_eq_true, decide_eq_true_eq, ThreadKey.mk.injEq]
  constructor
  · rintro ⟨rfl, ⟨⟨rfl, rfl⟩, hdate⟩, hne⟩
    exact ⟨⟨hdate, hne⟩, rfl, rfl, rfl⟩
  · rintro ⟨⟨hdate, hne⟩, rfl, rfl, rfl⟩
    exact ⟨rfl, ⟨⟨rfl, rfl⟩, hdate⟩, hne⟩

/-- The main timeline, if it is among the rows, is the last of them. -/
def MainLast : Prop := ∀ rows, mainTimeline ∈ (order.order rows).map (fun row => row.1.threadId) →
    ((order.order rows).map fun row => row.1.threadId).getLast? = some mainTimeline

/-- The order of the index on `(user_id, room_id, thread_id)`, in which the threads, whose ids start with
a `$`, come before the main timeline. -/
def mainLastOrder : RowOrder SummaryRow where
  order rows := rows.filter (fun row => row.1.threadId ≠ mainTimeline) ++
    rows.filter fun row => !decide (row.1.threadId ≠ mainTimeline)
  perm rows := List.filter_append_perm _ rows

theorem mainLast_mainLastOrder : MainLast mainLastOrder := by
  intro rows hmem
  unfold mainLastOrder at hmem ⊢
  rw [map_append] at hmem ⊢
  have hthread : ∀ threadId ∈ (rows.filter fun row => !decide (row.1.threadId ≠ mainTimeline)).map
      (fun row => row.1.threadId), threadId = mainTimeline := by
    intro threadId h
    obtain ⟨row, hrow, rfl⟩ := mem_map.mp h
    simpa using (mem_filter.mp hrow).2
  have hne : (rows.filter fun row => !decide (row.1.threadId ≠ mainTimeline)).map
      (fun row => row.1.threadId) ≠ [] := by
    rcases mem_append.mp hmem with h | h
    · obtain ⟨row, hrow, hmain⟩ := mem_map.mp h
      exact absurd hmain (of_decide_eq_true (mem_filter.mp hrow).2)
    · exact ne_nil_of_mem h
  rw [getLast?_append_of_ne_nil _ hne, getLast?_eq_some_getLast hne]
  exact congrArg some (hthread _ (getLast_mem hne))

theorem countP_actionsIn (userId roomId threadId : String) (after : ℤ) (kind : CountKind) :
    ((t.actionsIn userId roomId after none none).countP fun a => a.flag kind && a.threadId = threadId) =
      t.eventPushActions.countP fun a => a.key = ⟨userId, roomId, threadId⟩ && a.flag kind &&
        decide (after < a.streamOrdering) := by
  unfold PushTables.actionsIn
  rw [countP_filter]
  refine countP_congr fun a _ => ?_
  simp only [PushAction.key, ThreadKey.mk.injEq, Bool.and_eq_true, decide_eq_true_eq, Option.all_none]
  tauto

theorem countP_actionsAfterReceipts (userId roomId threadId : String) (unthreaded : ℤ)
    (kind : CountKind) : ((t.actionsAfterReceipts userId roomId unthreaded).countP fun a =>
        a.flag kind && a.threadId = threadId) =
      t.eventPushActions.countP fun a => a.key = ⟨userId, roomId, threadId⟩ && a.flag kind &&
        decide (t.latestReceipt userId roomId unthreaded threadId < a.streamOrdering) := by
  unfold PushTables.actionsAfterReceipts
  rw [countP_filter]
  refine countP_congr fun a _ => ?_
  simp only [PushAction.key, ThreadKey.mk.injEq, Bool.and_eq_true, decide_eq_true_eq]
  constructor
  · rintro ⟨⟨hflag, rfl⟩, ⟨rfl, rfl⟩, hafter⟩
    exact ⟨⟨⟨rfl, rfl, rfl⟩, hflag⟩, hafter⟩
  · rintro ⟨⟨⟨rfl, rfl, rfl⟩, hflag⟩, hafter⟩
    exact ⟨⟨hflag, rfl⟩, ⟨rfl, rfl⟩, hafter⟩

variable {order : RowOrder SummaryRow}

theorem mem_summarisedThreads {userId roomId threadId : String} :
    threadId ∈ t.summarisedThreads order userId roomId unthreaded ↔
      (t.usedSummary unthreaded ⟨userId, roomId, threadId⟩).isSome = true := by
  unfold PushTables.summarisedThreads
  rw [mem_map, Option.isSome_iff_exists]
  constructor
  · intro h
    obtain ⟨⟨key, s⟩, hrow, rfl⟩ := h
    obtain ⟨rfl, rfl, hs⟩ := mem_usedSummaries.mp ((order.perm _).mem_iff.mp hrow)
    exact ⟨s, hs⟩
  · intro h
    obtain ⟨s, hs⟩ := h
    exact ⟨_, (order.perm _).mem_iff.mpr (mem_usedSummaries.mpr ⟨rfl, rfl, hs⟩), rfl⟩

/-- The counts that the summaries contribute to a thread. -/
theorem sum_usedSummaries (order : RowOrder SummaryRow) (userId roomId threadId : String)
    (unthreaded : ℤ) (kind : CountKind) :
    ((((order.order (t.usedSummaries userId roomId unthreaded)).map fun row =>
      ((row.2.notifCount, row.2.unreadCount.getD 0, row.1.threadId) : CountRow)).filter
        fun row => row.2.2 = threadId).map (CountRow.count kind)).sum =
      (t.usedSummary unthreaded ⟨userId, roomId, threadId⟩).elim 0 (Summary.count kind) := by
  have hcount : (CountRow.count kind ∘ fun row : SummaryRow =>
      (row.2.notifCount, row.2.unreadCount.getD 0, row.1.threadId)) = fun row => row.2.count kind := by
    cases kind with
    | notif => rfl
    | unread => rfl
  rw [filter_map, map_map, hcount, (((order.perm _).filter _).map _).sum_eq]
  refine (congrArg (fun rows => (rows.map fun row => row.2.count kind).sum)
    (filter_usedSummaries userId roomId unthreaded threadId)).trans ?_
  cases t.usedSummary unthreaded ⟨userId, roomId, threadId⟩ with
  | none => rfl
  | some s => exact Nat.add_zero _

/-- If the main timeline is returned last, the counts since the last rotation go where they belong. -/
theorem foldl_addRotated_of_mainLast (hmain : MainLast order) (userId roomId : String)
    (unthreaded : ℤ) (rows : List CountRow) (c : RoomNotifCounts) :
    (rows.filter (·.2.2 ∈ t.summarisedThreads order userId roomId unthreaded)).foldl
        (RoomNotifCounts.addRotated (t.summarisedThreads order userId roomId unthreaded).getLast?) c =
      c.addRows (rows.filter (·.2.2 ∈ t.summarisedThreads order userId roomId unthreaded)) := by
  have hlast : ∀ row ∈ rows.filter (·.2.2 ∈ t.summarisedThreads order userId roomId unthreaded),
      row.2.2 = mainTimeline →
        (t.summarisedThreads order userId roomId unthreaded).getLast? = some mainTimeline := by
    intro row hrow hrowmain
    apply hmain
    rw [← hrowmain]
    exact of_decide_eq_true (mem_filter.mp hrow).2
  rw [RoomNotifCounts.foldl_addRotated c fun row hrow hrowmain => by rw [hlast row hrow hrowmain]; rfl]
  congr 1
  refine (map_congr_left fun row hrow => ?_).trans (map_id _)
  unfold rotatedTarget
  split
  next hrowmain =>
    rw [hlast row hrow hrowmain, Option.getD_some, ← hrowmain]
    rfl
  · rfl

variable (kind : CountKind) (threads : List String) (threadId : String) (actions : List PushAction)

omit threads in
theorem countP_flag_threadId (p : String → Bool) :
    (actions.countP fun a => a.flag kind && (decide (a.threadId = threadId) && p a.threadId)) =
      if p threadId then actions.countP fun a => a.flag kind && a.threadId = threadId else 0 := by
  split
  next hp =>
    refine countP_congr fun a _ => ?_
    by_cases heq : a.threadId = threadId
    · simp [heq, hp]
    · simp [heq]
  next hp =>
    refine countP_eq_zero.mpr fun a _ => ?_
    by_cases heq : a.threadId = threadId
    · simp [heq, hp]
    · simp [heq]

theorem sum_countByThread_mem :
    ((((countByThread actions).filter (·.2.2 ∈ threads)).filter fun row => row.2.2 = threadId).map
        (CountRow.count kind)).sum =
      if threadId ∈ threads then actions.countP fun a => a.flag kind && a.threadId = threadId else 0 := by
  rw [filter_filter]
  refine (count_countByThread kind (fun thread => decide (thread = threadId) &&
    decide (thread ∈ threads)) actions).trans ?_
  simp [countP_flag_threadId kind threadId actions fun thread => decide (thread ∈ threads)]

theorem sum_countByThread_notMem :
    (((countByThread (actions.filter (·.threadId ∉ threads))).filter fun row =>
        row.2.2 = threadId).map (CountRow.count kind)).sum =
      if threadId ∈ threads then 0 else actions.countP fun a => a.flag kind && a.threadId = threadId := by
  rw [count_countByThread kind (fun thread => decide (thread = threadId)), countP_filter]
  simp only [Bool.and_assoc]
  rw [countP_flag_threadId kind threadId actions fun thread => decide (thread ∉ threads)]
  simp

/-- What `_get_unread_counts_by_pos_txn` returns for a thread, if the main timeline is returned
last. -/
theorem count_getUnreadCountsByPosTxn (hmain : MainLast order) (hsound : hasEntityChanged.Sound t)
    (roomId userId : String) (unthreaded : ℤ) (threadId : String) (kind : CountKind) :
    ((getUnreadCountsByPosTxn order hasEntityChanged t roomId userId unthreaded).thread threadId).count
        kind =
      match t.usedSummary unthreaded ⟨userId, roomId, threadId⟩ with
      | some s => s.count kind + t.eventPushActions.countP fun a =>
          a.key = ⟨userId, roomId, threadId⟩ && a.flag kind && decide (t.rotatedUpto < a.streamOrdering)
      | none => t.eventPushActions.countP fun a =>
          a.key = ⟨userId, roomId, threadId⟩ && a.flag kind &&
            decide (t.latestReceipt userId roomId unthreaded threadId < a.streamOrdering) := by
  unfold getUnreadCountsByPosTxn
  dsimp only
  rw [getNotifUnreadCountForUserRoom_eq hsound]
  rw [foldl_addRotated_of_mainLast hmain, count_addRows, count_addRows, count_highlights, count_addRows,
    sum_usedSummaries, sum_countByThread_mem, sum_countByThread_notMem, countP_actionsIn,
    countP_actionsAfterReceipts, count_empty, Nat.zero_add]
  cases hused : t.usedSummary unthreaded ⟨userId, roomId, threadId⟩ with
  | some s =>
    have hmem : threadId ∈ t.summarisedThreads order userId roomId unthreaded := by
      rw [mem_summarisedThreads, hused]
      rfl
    rw [if_pos hmem, if_pos hmem]
    rfl
  | none =>
    have hmem : threadId ∉ t.summarisedThreads order userId roomId unthreaded := by
      rw [mem_summarisedThreads, hused]
      exact Bool.false_ne_true
    rw [if_neg hmem, if_neg hmem]
    exact Nat.zero_add _

/-! ## The receipts that decide -/

/-- The user's latest unthreaded receipt in the room. -/
structure IsLastUnthreaded (t : PushTables) (userId roomId : String) (receipt : ReadReceipt) : Prop where
  mem : receipt ∈ t.readReceipts userId roomId
  unthreaded : receipt.threadId = none
  latest : ∀ receipt' ∈ t.readReceipts userId roomId, receipt'.threadId = none →
    receipt'.streamOrdering ≤ receipt.streamOrdering

variable {receipt : ReadReceipt}

theorem isLastUnthreaded_of_getLast
    (h : getLastUnthreadedReceiptForUserTxn t userId roomId = some receipt) :
    IsLastUnthreaded t userId roomId receipt := by
  have hgreatest : IsGreatest ReadReceipt.streamOrdering
      ((t.readReceipts userId roomId).filter (·.threadId = none))
      (getLastUnthreadedReceiptForUserTxn t userId roomId) := isGreatest_head?_insertionSort _ _
  rw [h] at hgreatest
  obtain ⟨hmem, hle⟩ := hgreatest
  obtain ⟨hin, hthread⟩ := mem_filter.mp hmem
  refine ⟨hin, of_decide_eq_true hthread, fun receipt' hin' hthread' => hle receipt' ?_⟩
  exact mem_filter.mpr ⟨hin', decide_eq_true hthread'⟩

/-- `COALESCE(threaded_receipt_stream_ordering, ?)` is the latest of the receipts that cover the
thread. -/
theorem IsLastUnthreaded.latestReceipt_spec (h : IsLastUnthreaded t userId roomId receipt)
    (threadId : String) : t.latestReceipt userId roomId receipt.streamOrdering threadId ∈
        t.receiptsFor ⟨userId, roomId, threadId⟩ ∧
      ∀ streamOrdering ∈ t.receiptsFor ⟨userId, roomId, threadId⟩,
        streamOrdering ≤ t.latestReceipt userId roomId receipt.streamOrdering threadId := by
  unfold PushTables.latestReceipt PushTables.threadedReceipt
  obtain ⟨later, hlater⟩ : ∃ later, later = ((t.readReceipts userId roomId).filter fun receipt' =>
      receipt'.threadId = some threadId && decide (receipt.streamOrdering < receipt'.streamOrdering)).map
        ReadReceipt.streamOrdering := ⟨_, rfl⟩
  have hin : ∀ so, so ∈ later ↔ ∃ receipt' ∈ t.readReceipts userId roomId,
      (receipt'.threadId = some threadId ∧ receipt.streamOrdering < receipt'.streamOrdering) ∧
        receipt'.streamOrdering = so := by
    intro so
    simp [hlater, and_assoc]
  rw [← hlater]
  -- without a later receipt in the thread it is the unthreaded one
  have hge : receipt.streamOrdering ≤ later.max?.getD receipt.streamOrdering := by
    rcases getD_max?_cases later receipt.streamOrdering with ⟨_, hmax⟩ | ⟨hmem, _⟩
    · exact hmax.ge
    · obtain ⟨receipt', _, ⟨_, hlt⟩, heq⟩ := (hin _).mp hmem
      exact heq ▸ hlt.le
  constructor
  · rcases getD_max?_cases later receipt.streamOrdering with ⟨_, hmax⟩ | ⟨hmem, _⟩
    · rw [hmax]
      exact mem_receiptsFor.mpr ⟨receipt, h.mem, coversThread_iff.mpr (.inl h.unthreaded), rfl⟩
    · obtain ⟨receipt', hmem', ⟨hthread, _⟩, heq⟩ := (hin _).mp hmem
      exact mem_receiptsFor.mpr ⟨receipt', hmem', coversThread_iff.mpr (.inr hthread), heq⟩
  · intro streamOrdering hso
    obtain ⟨receipt', hmem, hcovers, rfl⟩ := mem_receiptsFor.mp hso
    rcases coversThread_iff.mp hcovers with hthread | hthread
    · exact (h.latest receipt' hmem hthread).trans hge
    · rcases le_or_gt receipt'.streamOrdering receipt.streamOrdering with hle | hlt
      · exact hle.trans hge
      · have hmem' := (hin _).mpr ⟨receipt', hmem, ⟨hthread, hlt⟩, rfl⟩
        rcases getD_max?_cases later receipt.streamOrdering with ⟨hnil, _⟩ | ⟨_, hle⟩
        · exact absurd hmem' (hnil ▸ not_mem_nil)
        · exact hle _ hmem'

theorem IsLastUnthreaded.latestReceipt_lt_iff (h : IsLastUnthreaded t userId roomId receipt)
    (threadId : String) (streamOrdering : ℤ) :
    t.latestReceipt userId roomId receipt.streamOrdering threadId < streamOrdering ↔
      t.isUnread ⟨userId, roomId, threadId⟩ streamOrdering = true := by
  obtain ⟨hmem, hle⟩ := h.latestReceipt_spec threadId
  rw [isUnread_iff]
  constructor
  · intro hlt receipt' hreceipt'
    have := hle receipt' hreceipt'
    omega
  · exact fun hall => hall _ hmem

/-- The summary is taken to be up to date with the receipts that cover the thread. -/
def PushTables.IsUpToDate (t : PushTables) (key : ThreadKey) (s : Summary) : Prop :=
  match s.lastReceiptStreamOrdering with
  | none => ∀ receipt ∈ t.receiptsFor key, receipt < s.streamOrdering
  | some last => last ∈ t.receiptsFor key ∧ ∀ receipt ∈ t.receiptsFor key, receipt ≤ last

instance (t : PushTables) (key : ThreadKey) (s : Summary) : Decidable (t.IsUpToDate key s) :=
  match h : s.lastReceiptStreamOrdering with
  | none => decidable_of_iff (∀ receipt ∈ t.receiptsFor key, receipt < s.streamOrdering)
      (by rw [PushTables.IsUpToDate, h])
  | some last => decidable_of_iff
      (last ∈ t.receiptsFor key ∧ ∀ receipt ∈ t.receiptsFor key, receipt ≤ last)
      (by rw [PushTables.IsUpToDate, h])

theorem isUpToDate_iff {s : Summary} {threadId : String}
    (hlast : IsLastUnthreaded t userId roomId receipt) : t.IsUpToDate ⟨userId, roomId, threadId⟩ s ↔
      s.isUpToDate (t.latestReceipt userId roomId receipt.streamOrdering threadId) = true := by
  obtain ⟨hmem, hle⟩ := hlast.latestReceipt_spec threadId
  unfold PushTables.IsUpToDate Summary.isUpToDate
  cases s.lastReceiptStreamOrdering with
  | none =>
    rw [decide_eq_true_iff]
    constructor
    · exact fun hall => hall _ hmem
    · intro hlt receipt' hmem'
      have := hle receipt' hmem'
      omega
  | some last =>
    rw [decide_eq_true_iff]
    constructor
    · intro h
      exact le_antisymm (hle last h.1) (h.2 _ hmem)
    · intro heq
      rw [heq]
      exact ⟨hmem, hle⟩

end
end Synapse.Push
