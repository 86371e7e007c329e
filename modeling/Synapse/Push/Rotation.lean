import Synapse.Push.UnreadCounts

/-!
# Receipts, rotation and removal

The transactions that write the tables of the unread counts.  A receipt is inserted unless the same
user has a later one of the same type and thread.  `_handle_new_receipts_for_notifs_txn` deletes the
push actions that a receipt has read and counts the summaries it covers again,
`_rotate_notifs_txn` counts a page of push actions into the summaries, and
`_remove_old_push_actions_that_have_rotated` deletes push actions that have been counted.

The lemmas say for each of them what the summary of a thread is afterwards.
-/

namespace Synapse.Push

open Synapse.Util List Dict

/-! ## New events and receipts -/

/-- A row of `event_push_actions_staging`. -/
structure StagedAction where
  userId : String
  threadId : String
  actions : String
  notif : Bool
  unread : Bool
  highlight : Bool

/-- The rows that `_set_push_actions_for_event_and_users_txn` moves to `event_push_actions`. -/
def pushActionsFor (eventId roomId : String) (streamOrdering : ℤ) (staged : List StagedAction) :
    List PushAction :=
  staged.map fun s =>
    ⟨s.userId, roomId, eventId, s.threadId, streamOrdering, s.actions, s.notif, s.unread, s.highlight⟩

def PushTables.persistEvent (t : PushTables) (eventId roomId : String) (streamOrdering : ℤ)
    (staged : List StagedAction) : PushTables :=
  { t with
    events := t.events.insert eventId ⟨roomId, streamOrdering⟩
    eventPushActions := t.eventPushActions ++ pushActionsFor eventId roomId streamOrdering staged }

/-- Nothing is returned if the receipt is older than the current one. -/
def insertLinearizedReceiptTxn (t : PushTables) (key : ReceiptKey) (eventId : String) (streamId : ℕ) :
    Option PushTables :=
  let streamOrdering := (t.events.lookup eventId).map EventRow.streamOrdering
  let existing := (t.receiptsLinearized.lookup key).bind fun row => t.eventIn key.roomId row.eventId
  if streamOrdering.any fun so => existing.any (so ≤ ·) then none
  else some { t with
    receiptsLinearized := t.receiptsLinearized.insert key ⟨streamId, eventId, streamOrdering⟩ }

/-! ## Handling receipts -/

/-- A row of `receipts_linearized INNER JOIN events USING (event_id)`. -/
structure NewReceipt where
  streamId : ℕ
  roomId : String
  userId : String
  threadId : Option String
  streamOrdering : ℤ

/-- `user_id LIKE '%:hostname'` and `is_mine_id`, and `_rotate_count`. -/
structure PushConfig where
  userFilter : String → Bool
  isMineId : String → Bool
  rotateCount : ℕ

variable (config : PushConfig)

def newReceipts (t : PushTables) (currentToken : ℕ) : List NewReceipt :=
  t.receiptsLinearized.items.filterMap fun row =>
    if t.lastReceiptStreamId < row.2.streamId ∧ row.2.streamId ≤ currentToken ∧
        config.userFilter row.1.userId then
      (t.events.lookup row.2.eventId).map fun event =>
        ⟨row.2.streamId, row.1.roomId, row.1.userId, row.1.threadId, event.streamOrdering⟩
    else none

def NewReceipt.covers (r : NewReceipt) (key : ThreadKey) : Bool :=
  key.userId = r.userId && key.roomId = r.roomId && coversThread key.threadId r.threadId

/-- `DELETE FROM event_push_actions …`: what is read and not highlighted. -/
def PushTables.deleteRead (t : PushTables) (r : NewReceipt) : PushTables :=
  { t with eventPushActions := t.eventPushActions.filter fun a =>
      !(a.roomId = r.roomId && a.userId = r.userId && decide (a.streamOrdering ≤ r.streamOrdering) &&
        !a.highlight && r.threadId.all (a.threadId = ·)) }

/-- `simple_update_many_txn` of the rows' threads. -/
def updateSummaries (summary : Dict ThreadKey Summary) (r : NewReceipt) (rotated : ℤ)
    (rows : List CountRow) : Dict ThreadKey Summary :=
  rows.foldl (fun summary row => summary.mapItems fun key s =>
    if key = ⟨r.userId, r.roomId, row.2.2⟩ then ⟨row.1, some row.2.1, rotated, some r.streamOrdering⟩
    else s) summary

/-- The turn of the loop for a receipt. -/
def handleNewReceipt (hasEntityChanged : EntityChanged) (rotated : ℤ) (t : PushTables)
    (r : NewReceipt) : PushTables :=
  let t := t.deleteRead r
  let unreadCounts := getNotifUnreadCountForUserRoom hasEntityChanged t r.roomId r.userId
    r.streamOrdering (some rotated) r.threadId
  match r.threadId with
  | none =>
    let cleared := t.eventPushSummary.mapItems fun key s =>
      if key.userId = r.userId ∧ key.roomId = r.roomId then
        ⟨0, some 0, rotated, some r.streamOrdering⟩
      else s
    { t with eventPushSummary := updateSummaries cleared r rotated unreadCounts }
  | some threadId =>
    let unreadCounts := if unreadCounts = [] then [(0, 0, threadId)] else unreadCounts
    { t with eventPushSummary := updateSummaries t.eventPushSummary r rotated unreadCounts }

/-- Whether all new receipts have been handled, and the tables. -/
def handleNewReceiptsForNotifsTxn (hasEntityChanged : EntityChanged) (currentToken : ℕ)
    (t : PushTables) : PushTables × Bool :=
  let limit := 100
  let rows := ((newReceipts config t currentToken).insertionSort fun row row' =>
    row.streamId ≤ row'.streamId).take limit
  let t' := (rows.filter fun row => config.isMineId row.userId).foldl
    (handleNewReceipt hasEntityChanged t.rotatedUpto) t
  let lastProcessed :=
    if limit ≤ rows.length then (rows.getLast?.map NewReceipt.streamId).getD currentToken
    else currentToken
  ({ t' with lastReceiptStreamId := lastProcessed }, decide (rows.length < limit))

/-! ## Rotation -/

/-- The push actions of a page that are counted. -/
def PushTables.rotatedActions (t : PushTables) (rotateTo : ℤ) (kind : CountKind) : List PushAction :=
  t.eventPushActions.filter fun a =>
    decide (t.rotatedUpto < a.streamOrdering) && decide (a.streamOrdering ≤ rotateTo) &&
      ((t.eventPushSummary.lookup a.key).bind Summary.lastReceiptStreamOrdering).all
        (· < a.streamOrdering) &&
      a.flag kind

/-- `(key, coalesce(old.count, 0) + upd.cnt, upd.stream_ordering)`. -/
def PushTables.rotatedCounts (t : PushTables) (rotateTo : ℤ) (kind : CountKind) :
    List (ThreadKey × ℕ × ℤ) :=
  (groupBy PushAction.key (t.rotatedActions rotateTo kind)).map fun group =>
    (group.1, ((t.eventPushSummary.lookup group.1).map (Summary.count kind)).getD 0 + group.2.length,
      ((group.2.map PushAction.streamOrdering).max?).getD 0)

/-- `_EventPushSummary`. -/
structure EventPushSummary where
  unreadCount : ℕ
  streamOrdering : ℤ
  notifCount : ℕ

/-- The results of the two queries put together. -/
def PushTables.rotatedSummaries (t : PushTables) (rotateTo : ℤ) : Dict ThreadKey EventPushSummary :=
  let summaries := Dict.upsertAll ∅ (t.rotatedCounts rotateTo .unread) fun _ row => ⟨row.1, row.2, 0⟩
  summaries.upsertAll (t.rotatedCounts rotateTo .notif) fun summary row =>
    match summary with
    | some summary => { summary with notifCount := row.1 }
    | none => ⟨0, row.2, row.1⟩

def rotateNotifsBeforeTxn (t : PushTables) (rotateTo : ℤ) : PushTables :=
  { t with
    eventPushSummary := t.eventPushSummary.upsertAll (t.rotatedSummaries rotateTo).items
      fun old summary =>
        match old with
        | some old => { old with
            notifCount := summary.notifCount
            unreadCount := some summary.unreadCount
            streamOrdering := summary.streamOrdering }
        | none => ⟨summary.notifCount, some summary.unreadCount, summary.streamOrdering, none⟩
    rotatedUpto := rotateTo }

/-- Where a page ends, and whether it is the last. -/
def rotateTo (currentToken : ℤ) (t : PushTables) : ℤ × Bool :=
  let orderings := (t.eventPushActions.map PushAction.streamOrdering).filter (t.rotatedUpto < ·)
  match (orderings.insertionSort (· ≤ ·))[config.rotateCount]? with
  | some offset => (min offset currentToken, false)
  | none => (currentToken, true)

def rotateNotifsTxn (currentToken : ℤ) (t : PushTables) : PushTables × Bool :=
  (rotateNotifsBeforeTxn t (rotateTo config currentToken t).1, (rotateTo config currentToken t).2)

/-! ## Removal -/

variable (maxStreamOrderingToDelete : ℤ) (t : PushTables)

/-- Up to where a transaction of `_remove_old_push_actions_that_have_rotated` deletes. -/
def removeUpto : ℤ :=
  let orderings := (t.eventPushActions.filter fun a =>
    decide (a.streamOrdering ≤ maxStreamOrderingToDelete) && !a.highlight).map PushAction.streamOrdering
  match (orderings.insertionSort (· ≤ ·))[config.rotateCount]? with
  | some streamOrdering => streamOrdering
  | none => maxStreamOrderingToDelete

def PushAction.isOld (upto : ℤ) (a : PushAction) : Bool := decide (a.streamOrdering ≤ upto) && !a.highlight

/-- One transaction of the loop, and whether it was the last. -/
def removeOldPushActionsTxn : PushTables × Bool :=
  let upto := removeUpto config maxStreamOrderingToDelete t
  ({ t with eventPushActions := t.eventPushActions.filter fun a => !a.isOld upto },
    decide ((t.eventPushActions.filter (PushAction.isOld upto)).length < config.rotateCount))

/-! ## The summary of a thread afterwards -/

section
variable {t : PushTables} {hasEntityChanged : EntityChanged} {r : NewReceipt} {rotated : ℤ}
  {key : ThreadKey}

theorem lookup_updateSummaries_of_ne : ∀ {rows : List CountRow} {summary : Dict ThreadKey Summary},
    (∀ row ∈ rows, key ≠ ⟨r.userId, r.roomId, row.2.2⟩) →
      (updateSummaries summary r rotated rows).lookup key = summary.lookup key
  | [], _, _ => rfl
  | row :: rows, summary, hne => by
    refine (lookup_updateSummaries_of_ne fun row' hmem => hne row' (mem_cons_of_mem _ hmem)).trans ?_
    rw [lookup_mapItems]
    refine (congrArg (Option.map · _) (funext fun s => ?_)).trans Option.map_id'
    exact if_neg (hne row mem_cons_self)

variable {row : CountRow}

theorem lookup_updateSummaries_of_mem : ∀ {rows : List CountRow}
    {summary : Dict ThreadKey Summary}, (rows.map fun row => row.2.2).Nodup → row ∈ rows →
      (updateSummaries summary r rotated rows).lookup ⟨r.userId, r.roomId, row.2.2⟩ =
        (summary.lookup ⟨r.userId, r.roomId, row.2.2⟩).map fun _ =>
          ⟨row.1, some row.2.1, rotated, some r.streamOrdering⟩
  | row' :: rows, summary, hnodup, hmem => by
    obtain ⟨hnotin, hnodup⟩ := nodup_cons.mp hnodup
    rw [updateSummaries, foldl_cons]
    rcases mem_cons.mp hmem with rfl | hmem
    · refine (lookup_updateSummaries_of_ne fun row' hmem heq => hnotin ?_).trans ?_
      · dsimp only
        rw [show row.2.2 = row'.2.2 from (ThreadKey.mk.inj heq).2.2]
        exact mem_map_of_mem hmem
      · rw [lookup_mapItems]
        exact congrArg (Option.map · _) (funext fun s => if_pos rfl)
    · refine (lookup_updateSummaries_of_mem hnodup hmem).trans ?_
      rw [lookup_mapItems, Option.map_map]
      rfl

/-- The summary of a thread after a receipt, counted from some push actions. -/
def NewReceipt.recount (r : NewReceipt) (rotated : ℤ) (actions : List PushAction) (threadId : String) :
    Summary :=
  ⟨actions.countP fun a => a.notif && a.threadId = threadId,
    some (actions.countP fun a => a.unread && a.threadId = threadId), rotated, some r.streamOrdering⟩

variable {actions : List PushAction} {threadId : String}

theorem NewReceipt.recount_of_notMem (hmem : threadId ∉ actions.map PushAction.threadId) :
    r.recount rotated actions threadId = ⟨0, some 0, rotated, some r.streamOrdering⟩ := by
  have hzero : ∀ p : PushAction → Bool, (actions.countP fun a => p a && a.threadId = threadId) = 0 := by
    intro p
    refine countP_eq_zero.mpr fun a ha hp => hmem ?_
    rw [← of_decide_eq_true (Bool.and_eq_true_iff.mp hp).2]
    exact mem_map_of_mem ha
  unfold NewReceipt.recount
  rw [hzero, hzero]

variable (hmem : threadId ∈ actions.map PushAction.threadId)
include hmem in
theorem mem_countByThread_of_mem : ((actions.countP fun a => a.notif && a.threadId = threadId,
      actions.countP fun a => a.unread && a.threadId = threadId, threadId) : CountRow) ∈
        countByThread actions := mem_countByThread.mpr ⟨hmem, rfl, rfl⟩

include hmem in
theorem lookup_updateSummaries_countByThread (summary : Dict ThreadKey Summary) :
    (updateSummaries summary r rotated (countByThread actions)).lookup ⟨r.userId, r.roomId, threadId⟩ =
      (summary.lookup ⟨r.userId, r.roomId, threadId⟩).map fun _ => r.recount rotated actions threadId :=
  lookup_updateSummaries_of_mem (nodup_map_countByThread actions) (mem_countByThread_of_mem hmem)

/-- For an unthreaded receipt every thread is cleared first. -/
theorem lookup_updateSummaries_cleared (actions : List PushAction) (threadId : String)
    (summary : Dict ThreadKey Summary) : (updateSummaries (summary.mapItems fun key s =>
        if key.userId = r.userId ∧ key.roomId = r.roomId then ⟨0, some 0, rotated, some r.streamOrdering⟩
        else s) r rotated (countByThread actions)).lookup ⟨r.userId, r.roomId, threadId⟩ =
      (summary.lookup ⟨r.userId, r.roomId, threadId⟩).map fun _ =>
        r.recount rotated actions threadId := by
  by_cases hmem : threadId ∈ actions.map PushAction.threadId
  · rw [lookup_updateSummaries_countByThread hmem, lookup_mapItems, Option.map_map]
    rfl
  · rw [lookup_updateSummaries_of_ne fun row hrow heq => hmem ?_, lookup_mapItems,
      NewReceipt.recount_of_notMem hmem]
    · exact congrArg (Option.map · _) (funext fun s => if_pos ⟨rfl, rfl⟩)
    · rw [(ThreadKey.mk.inj heq).2.2]
      exact (mem_countByThread.mp hrow).1

theorem threadId_of_mem_countRows (hactions : ∀ a ∈ actions, a.threadId = threadId)
    (hrow : row ∈ if countByThread actions = [] then [(0, 0, threadId)] else countByThread actions) :
    row.2.2 = threadId := by
  split at hrow
  · rw [mem_singleton.mp hrow]
  · obtain ⟨a, ha, heq⟩ := mem_map.mp (mem_countByThread.mp hrow).1
    rw [← heq, hactions a ha]

/-- For a threaded receipt the thread gets a row also if it has no push actions. -/
theorem lookup_updateSummaries_threaded (hactions : ∀ a ∈ actions, a.threadId = threadId)
    (summary : Dict ThreadKey Summary) : (updateSummaries summary r rotated
        (if countByThread actions = [] then [(0, 0, threadId)] else countByThread actions)).lookup
          ⟨r.userId, r.roomId, threadId⟩ =
      (summary.lookup ⟨r.userId, r.roomId, threadId⟩).map fun _ =>
        r.recount rotated actions threadId := by
  split
  next hnil =>
    have hmem : threadId ∉ actions.map PushAction.threadId := by
      intro hmem
      have hrow := mem_countByThread_of_mem hmem
      rw [hnil] at hrow
      exact not_mem_nil hrow
    rw [NewReceipt.recount_of_notMem hmem]
    have hrow : (0, 0, threadId) ∈ [(0, 0, threadId)] := mem_singleton_self _
    refine lookup_updateSummaries_of_mem ?_ hrow
    exact nodup_singleton threadId
  next hne =>
    refine lookup_updateSummaries_countByThread ?_ summary
    obtain ⟨row, hrow⟩ := exists_mem_of_ne_nil _ hne
    obtain ⟨a, ha, _⟩ := mem_map.mp (mem_countByThread.mp hrow).1
    rw [← hactions a ha]
    exact mem_map_of_mem ha

/-- The push actions of a thread between a receipt and the last rotation. -/
def PushTables.countBetween (t : PushTables) (key : ThreadKey) (after upto : ℤ) (kind : CountKind) : ℕ :=
  t.eventPushActions.countP fun a =>
    a.key = key && a.flag kind && decide (after < a.streamOrdering) && decide (a.streamOrdering ≤ upto)

variable (t r rotated threadId)

theorem countP_actionsIn_deleteRead (hcovers : coversThread threadId r.threadId = true)
    (kind : CountKind) :
    (((t.deleteRead r).actionsIn r.userId r.roomId r.streamOrdering (some rotated) r.threadId).countP
        fun a => a.flag kind && a.threadId = threadId) =
      t.countBetween ⟨r.userId, r.roomId, threadId⟩ r.streamOrdering rotated kind := by
  unfold PushTables.actionsIn PushTables.deleteRead PushTables.countBetween
  rw [countP_filter, countP_filter]
  refine countP_congr fun a _ => ?_
  simp only [PushAction.key, ThreadKey.mk.injEq, Bool.and_eq_true, decide_eq_true_eq,
    Option.all_some, Bool.not_eq_true', Bool.and_eq_false_iff, decide_eq_false_iff_not]
  constructor
  · intro h
    obtain ⟨⟨⟨hflag, hthread⟩, ⟨⟨⟨huser, hroom⟩, hafter⟩, hupto⟩, _⟩, _⟩ := h
    exact ⟨⟨⟨⟨huser, hroom, hthread⟩, hflag⟩, hafter⟩, hupto⟩
  · intro h
    obtain ⟨⟨⟨⟨huser, hroom, rfl⟩, hflag⟩, hafter⟩, hupto⟩ := h
    refine ⟨⟨⟨hflag, rfl⟩, ⟨⟨⟨huser, hroom⟩, hafter⟩, hupto⟩, ?_⟩, ?_⟩
    · rcases coversThread_iff.mp hcovers with hthread | hthread
      · rw [hthread]; rfl
      · rw [hthread]; exact decide_eq_true rfl
    · exact .inl (.inl (.inr (not_le.mpr hafter)))

theorem recount_deleteRead (hcovers : coversThread threadId r.threadId = true) :
    r.recount rotated ((t.deleteRead r).actionsIn r.userId r.roomId r.streamOrdering (some rotated)
        r.threadId) threadId =
      ⟨t.countBetween ⟨r.userId, r.roomId, threadId⟩ r.streamOrdering rotated .notif,
        some (t.countBetween ⟨r.userId, r.roomId, threadId⟩ r.streamOrdering rotated .unread), rotated,
        some r.streamOrdering⟩ := by
  rw [← countP_actionsIn_deleteRead t r rotated threadId hcovers,
    ← countP_actionsIn_deleteRead t r rotated threadId hcovers]
  rfl

variable {t r rotated threadId}

theorem EntityChanged.Sound.deleteRead (hsound : hasEntityChanged.Sound t) (r : NewReceipt) :
    hasEntityChanged.Sound (t.deleteRead r) := fun a hmem => hsound a (mem_filter.mp hmem).1

/-- A summary that the receipt covers is counted again from the push actions; the others stay. -/
theorem lookup_handleNewReceipt (hsound : hasEntityChanged.Sound t) (r : NewReceipt) (rotated : ℤ)
    (key : ThreadKey) : (handleNewReceipt hasEntityChanged rotated t r).eventPushSummary.lookup key =
      (t.eventPushSummary.lookup key).map fun s => if r.covers key then
          ⟨t.countBetween key r.streamOrdering rotated .notif,
            some (t.countBetween key r.streamOrdering rotated .unread), rotated, some r.streamOrdering⟩
        else s := by
  obtain ⟨userId, roomId, threadId⟩ := key
  unfold handleNewReceipt NewReceipt.covers
  dsimp only
  rw [getNotifUnreadCountForUserRoom_eq (hsound.deleteRead r)]
  have hrecount := recount_deleteRead t r rotated threadId
  have hactions : ∀ a ∈ (t.deleteRead r).actionsIn r.userId r.roomId r.streamOrdering (some rotated)
      r.threadId, r.threadId.all (a.threadId = ·) = true :=
    fun a ha => (Bool.and_eq_true_iff.mp (mem_filter.mp ha).2).2
  generalize (t.deleteRead r).actionsIn r.userId r.roomId r.streamOrdering (some rotated)
    r.threadId = actions at hrecount hactions
  -- only summaries of the user and room of the receipt are written
  by_cases huser : userId = r.userId ∧ roomId = r.roomId
  · obtain ⟨rfl, rfl⟩ := huser
    simp only [decide_true, Bool.true_and]
    cases hthread : r.threadId with
    | none =>
      simp only [if_pos (show coversThread threadId none = true from rfl),
        ← hrecount (by rw [hthread]; rfl)]
      exact lookup_updateSummaries_cleared actions threadId t.eventPushSummary
    | some threadId₀ =>
      rw [hthread] at hactions
      have hactions : ∀ a ∈ actions, a.threadId = threadId₀ := fun a ha =>
        of_decide_eq_true (hactions a ha)
      by_cases heq : threadId = threadId₀
      · subst heq
        have hcovers := coversThread_iff.mpr
          (.inr rfl : some threadId = none ∨ some threadId = some threadId)
        simp only [if_pos hcovers, ← hrecount (by rw [hthread]; exact hcovers)]
        exact lookup_updateSummaries_threaded hactions t.eventPushSummary
      · have hcovers : coversThread threadId (some threadId₀) ≠ true := fun hcovers =>
          heq (Option.some.inj ((coversThread_iff.mp hcovers).resolve_left nofun)).symm
        simp only [if_neg hcovers, Option.map_id']
        refine lookup_updateSummaries_of_ne fun row hrow hkey => heq ?_
        rw [(ThreadKey.mk.inj hkey).2.2]
        exact threadId_of_mem_countRows hactions hrow
  · have hne : ∀ threadId', (⟨userId, roomId, threadId⟩ : ThreadKey) ≠
        ⟨r.userId, r.roomId, threadId'⟩ := fun threadId' hkey =>
      huser ⟨(ThreadKey.mk.inj hkey).1, (ThreadKey.mk.inj hkey).2.1⟩
    have hcovers : (decide (userId = r.userId) && decide (roomId = r.roomId) &&
        coversThread threadId r.threadId) ≠ true := by
      intro h
      obtain ⟨huser', hroom'⟩ := Bool.and_eq_true_iff.mp (Bool.and_eq_true_iff.mp h).1
      exact huser ⟨of_decide_eq_true huser', of_decide_eq_true hroom'⟩
    simp only [if_neg hcovers, Option.map_id']
    cases r.threadId with
    | none =>
      rw [lookup_updateSummaries_of_ne fun row _ => hne row.2.2, lookup_mapItems]
      refine (congrArg (Option.map · _) (funext fun s => if_neg huser)).trans Option.map_id'
    | some threadId₀ => exact lookup_updateSummaries_of_ne fun row _ => hne row.2.2

/-- How many push actions a page adds to a count of a thread. -/
def PushTables.pageCount (t : PushTables) (rotateTo : ℤ) (key : ThreadKey) (kind : CountKind) : ℕ :=
  (t.rotatedActions rotateTo kind).countP (·.key = key)

/-- The counts of a thread so far. -/
def PushTables.oldCount (t : PushTables) (key : ThreadKey) (kind : CountKind) : ℕ :=
  ((t.eventPushSummary.lookup key).map (Summary.count kind)).getD 0

theorem nodup_map_rotatedCounts (rotateTo : ℤ) (kind : CountKind) :
    ((t.rotatedCounts rotateTo kind).map Prod.fst).Nodup := by
  unfold PushTables.rotatedCounts
  rw [map_map]
  exact nodup_map_fst_groupBy _

variable {rotateTo : ℤ} {kind : CountKind}

theorem mem_map_rotatedCounts :
    key ∈ (t.rotatedCounts rotateTo kind).map Prod.fst ↔ 0 < t.pageCount rotateTo key kind := by
  unfold PushTables.rotatedCounts PushTables.pageCount
  rw [map_map, countP_pos_iff]
  constructor
  · intro h
    obtain ⟨⟨key', group⟩, hgroup, rfl⟩ := mem_map.mp h
    obtain ⟨a, ha, heq⟩ := mem_map.mp (mem_groupBy.mp hgroup).1
    exact ⟨a, ha, decide_eq_true heq⟩
  · intro h
    obtain ⟨a, ha, heq⟩ := h
    refine mem_map.mpr ⟨(key, _), mem_groupBy.mpr ⟨?_, rfl⟩, rfl⟩
    exact mem_map.mpr ⟨a, ha, of_decide_eq_true heq⟩

/-- The stream ordering of a push action of the page. -/
def PushTables.InPage (t : PushTables) (rotateTo : ℤ) (key : ThreadKey) (streamOrdering : ℤ) : Prop :=
  ∃ kind, ∃ a ∈ t.rotatedActions rotateTo kind, a.key = key ∧ a.streamOrdering = streamOrdering

variable (h : 0 < t.pageCount rotateTo key kind)
include h in
theorem exists_mem_rotatedCounts : ∃ streamOrdering,
      (key, t.oldCount key kind + t.pageCount rotateTo key kind, streamOrdering) ∈
        t.rotatedCounts rotateTo kind ∧ t.InPage rotateTo key streamOrdering := by
  obtain ⟨a, ha, hkey⟩ := countP_pos_iff.mp h
  have hkeys : key ∈ (t.rotatedActions rotateTo kind).map PushAction.key :=
    mem_map.mpr ⟨a, ha, of_decide_eq_true hkey⟩
  refine ⟨((((t.rotatedActions rotateTo kind).filter fun row => row.key = key).map
    PushAction.streamOrdering).max?).getD 0, ?_, kind, ?_⟩
  · rw [PushTables.pageCount, countP_eq_length_filter]
    exact mem_map.mpr ⟨_, mem_groupBy.mpr ⟨hkeys, rfl⟩, rfl⟩
  · -- the group has a push action, so that the maximum is the ordering of one
    have hmem : a.streamOrdering ∈ ((t.rotatedActions rotateTo kind).filter fun row =>
        row.key = key).map PushAction.streamOrdering :=
      mem_map_of_mem (mem_filter.mpr ⟨ha, hkey⟩)
    obtain ⟨latest, hlatest, hmax, _⟩ := exists_max? (ne_nil_of_mem hmem)
    obtain ⟨a', ha', heq'⟩ := mem_map.mp hlatest
    obtain ⟨ha', hkey'⟩ := mem_filter.mp ha'
    rw [hmax]
    exact ⟨a', ha', of_decide_eq_true hkey', heq'⟩

/-- What is written to a count: with a push action of the kind in the page it is increased, without one
it is set to 0. -/
def PushTables.rotatedCount (t : PushTables) (rotateTo : ℤ) (key : ThreadKey) (kind : CountKind) : ℕ :=
  if t.pageCount rotateTo key kind = 0 then 0 else t.oldCount key kind + t.pageCount rotateTo key kind

theorem lookup_rotatedSummaries_none (h : ∀ kind, t.pageCount rotateTo key kind = 0) :
    (t.rotatedSummaries rotateTo).lookup key = none := by
  have hnotin : ∀ kind, key ∉ (t.rotatedCounts rotateTo kind).map Prod.fst := fun kind hmem =>
    (mem_map_rotatedCounts.mp hmem).ne' (h kind)
  unfold PushTables.rotatedSummaries
  rw [lookup_upsertAll_of_notMem (hnotin .notif), lookup_upsertAll_of_notMem (hnotin .unread)]
  rfl

include h in
theorem lookup_rotatedSummaries_some : ∃ streamOrdering, t.InPage rotateTo key streamOrdering ∧
      (t.rotatedSummaries rotateTo).lookup key = some
        ⟨t.rotatedCount rotateTo key .unread, streamOrdering, t.rotatedCount rotateTo key .notif⟩ := by
  unfold PushTables.rotatedSummaries PushTables.rotatedCount
  by_cases hunread : t.pageCount rotateTo key .unread = 0
  · have hnotin : key ∉ (t.rotatedCounts rotateTo .unread).map Prod.fst := fun hmem =>
      (mem_map_rotatedCounts.mp hmem).ne' hunread
    have hnotif : 0 < t.pageCount rotateTo key .notif := by
      cases kind with
      | notif => exact h
      | unread => omega
    obtain ⟨so, hrow, hpage⟩ := exists_mem_rotatedCounts hnotif
    refine ⟨so, hpage, ?_⟩
    rw [lookup_upsertAll_of_mem (nodup_map_rotatedCounts _ _) hrow,
      lookup_upsertAll_of_notMem hnotin, if_pos hunread, if_neg hnotif.ne']
    rfl
  · obtain ⟨so, hrow, hpage⟩ := exists_mem_rotatedCounts (Nat.pos_of_ne_zero hunread)
    have hlookup := lookup_upsertAll_of_mem (d := (∅ : Dict ThreadKey EventPushSummary))
      (f := fun _ row => ⟨row.1, row.2, 0⟩) (nodup_map_rotatedCounts _ _) hrow
    refine ⟨so, hpage, ?_⟩
    rw [if_neg hunread]
    by_cases hnotif : t.pageCount rotateTo key .notif = 0
    · have hnotin : key ∉ (t.rotatedCounts rotateTo .notif).map Prod.fst := fun hmem =>
        (mem_map_rotatedCounts.mp hmem).ne' hnotif
      rw [lookup_upsertAll_of_notMem hnotin, hlookup, if_pos hnotif]
    · obtain ⟨so', hrow', _⟩ := exists_mem_rotatedCounts (Nat.pos_of_ne_zero hnotif)
      rw [lookup_upsertAll_of_mem (nodup_map_rotatedCounts _ _) hrow', hlookup, if_neg hnotif]

theorem lookup_rotateNotifsBefore_unchanged (h : ∀ kind, t.pageCount rotateTo key kind = 0) :
    (rotateNotifsBeforeTxn t rotateTo).eventPushSummary.lookup key = t.eventPushSummary.lookup key := by
  refine lookup_upsertAll_of_notMem fun hmem => ?_
  obtain ⟨⟨key', summary⟩, hitem, rfl⟩ := mem_map.mp hmem
  have := mem_items.mp hitem
  rw [lookup_rotatedSummaries_none h] at this
  exact nomatch this

include h in
/-- The summary of a thread of which the page has push actions. -/
theorem lookup_rotateNotifsBefore : ∃ streamOrdering, t.InPage rotateTo key streamOrdering ∧
      (rotateNotifsBeforeTxn t rotateTo).eventPushSummary.lookup key = some
        ⟨t.rotatedCount rotateTo key .notif, some (t.rotatedCount rotateTo key .unread), streamOrdering,
          (t.eventPushSummary.lookup key).bind Summary.lastReceiptStreamOrdering⟩ := by
  obtain ⟨so, hpage, hlookup⟩ := lookup_rotatedSummaries_some h
  refine ⟨so, hpage, ?_⟩
  unfold rotateNotifsBeforeTxn
  rw [lookup_upsertAll_of_mem (by rw [map_fst_items]; exact AList.keys_nodup _) (mem_items.mpr hlookup)]
  cases t.eventPushSummary.lookup key with
  | none => rfl
  | some old => rfl

end
end Synapse.Push
