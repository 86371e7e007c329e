import Synapse.Push.Rotation

/-!
# Unread counts along a run

Push actions are added, receipts come in, and the background transactions run, in any order.  The
unread counts should be those of the push actions that were ever added and come after the receipts.
They are not in general.  A summary row that no receipt has been recorded in is taken for up to date
although a receipt has come since; a highlighted push action that has been read is not deleted and can
still be counted into such a row; a page that has push actions for only one of the two counts sets the
other one to 0; a receipt that does not go further than another one leaves the row with the wrong
receipt, so that it is never used; and push actions are removed although the row that counts them is
not used.

`KeyInv` is what holds of a thread as long as none of this happens to it (`PushStep.Harmless`).  A
summary that is up to date counts the unread push actions up to the last rotation, wherever it is not
up to date the unread push actions are all still there, and they are all there as well as long as there
is a receipt that will make the summary be counted again.
-/

namespace Synapse.Push

open Synapse.Util List

/-! ## Runs -/

/-- The tables, and for reference all push actions that were added and those that
`_remove_old_push_actions_that_have_rotated` has removed. -/
structure PushWorld where
  tables : PushTables
  pushed : List PushAction
  removed : List PushAction

inductive PushStep where
  | persistEvent (eventId roomId : String) (streamOrdering : ℤ) (staged : List StagedAction)
  | insertReceipt (key : ReceiptKey) (eventId : String) (streamId : ℕ)
  | handleNewReceipts (hasEntityChanged : EntityChanged) (currentToken : ℕ)
  | rotateNotifs (currentToken : ℤ)
  | removeOldPushActions (maxStreamOrderingToDelete : ℤ)

def PushWorld.step (config : PushConfig) (w : PushWorld) : PushStep → PushWorld
  | .persistEvent eventId roomId streamOrdering staged =>
    { w with
      tables := w.tables.persistEvent eventId roomId streamOrdering staged
      pushed := w.pushed ++ pushActionsFor eventId roomId streamOrdering staged }
  | .insertReceipt key eventId streamId =>
    { w with tables := (insertLinearizedReceiptTxn w.tables key eventId streamId).getD w.tables }
  | .handleNewReceipts hasEntityChanged currentToken =>
    { w with
      tables := (handleNewReceiptsForNotifsTxn config hasEntityChanged currentToken w.tables).1 }
  | .rotateNotifs currentToken => { w with tables := (rotateNotifsTxn config currentToken w.tables).1 }
  | .removeOldPushActions maxStreamOrderingToDelete =>
    { w with
      tables := (removeOldPushActionsTxn config maxStreamOrderingToDelete w.tables).1
      removed := w.removed ++ w.tables.eventPushActions.filter
        (PushAction.isOld (removeUpto config maxStreamOrderingToDelete w.tables)) }

def PushWorld.run (config : PushConfig) (w : PushWorld) (steps : List PushStep) : PushWorld :=
  steps.foldl (PushWorld.step config) w

/-- The condition holds at every step of the run. -/
def PushWorld.AllSteps (config : PushConfig) (P : PushWorld → PushStep → Prop) :
    PushWorld → List PushStep → Prop
  | _, [] => True
  | w, step :: steps => P w step ∧ AllSteps config P (w.step config step) steps

/-- What the callers see to.  Event ids and stream orderings are new: no stream ordering is handed out
that is not after every position up to which has been rotated.  The user's receipts in the room are read
receipts for events of the room, not before a push action of theirs that has been removed.  Positions do
not go back, and only what has been rotated is removed. -/
def PushStep.Legal (userId roomId : String) (w : PushWorld) : PushStep → Prop
  | .persistEvent eventId _ streamOrdering _ =>
    w.tables.events.lookup eventId = none ∧ w.tables.rotatedUpto < streamOrdering
  | .insertReceipt key eventId _ => key.userId = userId → key.roomId = roomId →
    key.receiptType ∈ readReceiptTypes ∧ ∃ streamOrdering,
      w.tables.eventIn roomId eventId = some streamOrdering ∧
        ∀ a ∈ w.removed, a.userId = userId → a.roomId = roomId → a.streamOrdering ≤ streamOrdering
  | .handleNewReceipts hasEntityChanged currentToken =>
    hasEntityChanged.Sound w.tables ∧ w.tables.lastReceiptStreamId ≤ currentToken
  | .rotateNotifs currentToken => w.tables.rotatedUpto ≤ currentToken
  | .removeOldPushActions maxStreamOrderingToDelete =>
    maxStreamOrderingToDelete ≤ w.tables.rotatedUpto

/-! ## What goes wrong -/

/-- The push action counts for one of the counts. -/
def PushAction.counted (a : PushAction) : Bool := a.notif || a.unread

variable (t : PushTables) (key : ThreadKey)

/-- A receipt that covers the thread has not been handled yet. -/
def PushTables.Unhandled : Prop :=
  ∃ row ∈ t.receiptsLinearized.items, row.1.userId = key.userId ∧ row.1.roomId = key.roomId ∧
    coversThread key.threadId row.1.threadId = true ∧ t.lastReceiptStreamId < row.2.streamId

/-- The unread counts of the thread come from the push actions, or will. -/
def PushTables.NeedsActions : Prop :=
  (∀ s ∈ t.eventPushSummary.lookup key, ¬ t.IsUpToDate key s) ∨ t.Unhandled key

/-- The page adds to the summary of the thread what is missing: a summary without a receipt is up to
date and gets unread push actions only, and a count for which the page has nothing is 0 if the page has
something for the other one. -/
structure PushTables.RotatesCleanly (t : PushTables) (key : ThreadKey) (rotateTo : ℤ) : Prop where
  unread : (t.eventPushSummary.lookup key).bind Summary.lastReceiptStreamOrdering = none →
    ∀ kind, ∀ a ∈ t.rotatedActions rotateTo kind, a.key = key → t.isUnread key a.streamOrdering = true ∧
        ∀ s ∈ t.eventPushSummary.lookup key, t.IsUpToDate key s
  both : ∀ s ∈ t.eventPushSummary.lookup key, t.IsUpToDate key s → ∀ kind kind',
    t.pageCount rotateTo key kind = 0 → t.pageCount rotateTo key kind' ≠ 0 → s.count kind = 0

/-- A receipt at the stream ordering reads no unread push action of the thread. -/
def PushWorld.ReadsNothing (w : PushWorld) (key : ThreadKey) (streamOrdering : ℤ) : Prop :=
  ∀ a ∈ w.pushed, a.key = key → a.counted = true → w.tables.isUnread key a.streamOrdering = true →
    streamOrdering < a.streamOrdering

/-- The step does no harm to the thread.  A receipt reads nothing that a summary without a receipt has
counted, unless that summary ends with it; a page is counted as it should be; and no unread push action
is removed that is still needed. -/
def PushStep.Harmless (config : PushConfig) (key : ThreadKey) (w : PushWorld) : PushStep → Prop
  | .insertReceipt receipt eventId _ =>
    receipt.userId = key.userId → receipt.roomId = key.roomId →
    coversThread key.threadId receipt.threadId = true →
    ∀ s ∈ w.tables.eventPushSummary.lookup key, s.lastReceiptStreamOrdering = none →
    ∀ streamOrdering ∈ w.tables.eventIn key.roomId eventId, streamOrdering < s.streamOrdering →
      w.ReadsNothing key streamOrdering
  | .rotateNotifs currentToken =>
    w.tables.RotatesCleanly key (rotateTo config currentToken w.tables).1
  | .removeOldPushActions maxStreamOrderingToDelete =>
    ∀ a ∈ w.tables.eventPushActions,
      a.isOld (removeUpto config maxStreamOrderingToDelete w.tables) = true →
      a.key = key → a.counted = true → w.tables.isUnread key a.streamOrdering = true →
        ¬ w.tables.NeedsActions key
  | _ => True

/-! ## The invariant -/

/-- The push action counts for the thread, and has not been read. -/
abbrev PushTables.unread (t : PushTables) (key : ThreadKey) (kind : CountKind) (a : PushAction) : Bool :=
  a.key = key && a.flag kind && t.isUnread key a.streamOrdering

structure KeyInv (t : PushTables) (pushed removed : List PushAction) (key : ThreadKey) : Prop where
  /-- The receipts are read receipts for events of the room. -/
  known : ∀ receipt row, t.receiptsLinearized.lookup receipt = some row →
    receipt.userId = key.userId → receipt.roomId = key.roomId →
      receipt.receiptType ∈ readReceiptTypes ∧ (t.eventIn key.roomId row.eventId).isSome = true
  /-- Only what has been rotated is removed. -/
  removed_le : ∀ a ∈ removed, a.userId = key.userId → a.roomId = key.roomId →
    a.streamOrdering ≤ t.rotatedUpto
  subset : ∀ a ∈ t.eventPushActions, a.key = key → a ∈ pushed
  /-- The unread push actions after all those that were removed are there. -/
  kept : ∀ after, (∀ a ∈ removed, a.userId = key.userId → a.roomId = key.roomId →
      a.streamOrdering ≤ after) →
    SameOn (fun a => a.key = key && t.isUnread key a.streamOrdering &&
      decide (after < a.streamOrdering)) t.eventPushActions pushed
  /-- A thread without a summary has nothing to summarise. -/
  unsummarised : t.eventPushSummary.lookup key = none → ∀ a ∈ pushed, a.key = key →
    a.counted = true → t.isUnread key a.streamOrdering = true → t.rotatedUpto < a.streamOrdering
  lastReceipt : ∀ s, t.eventPushSummary.lookup key = some s →
    ∀ last, s.lastReceiptStreamOrdering = some last → ∃ receipt ∈ t.receiptsFor key, last ≤ receipt
  counts : ∀ s, t.eventPushSummary.lookup key = some s → t.IsUpToDate key s → ∀ kind,
    s.count kind = pushed.countP fun a => t.unread key kind a && decide (a.streamOrdering ≤ t.rotatedUpto)
  complete : t.NeedsActions key →
    SameOn (fun a => a.key = key && a.counted && t.isUnread key a.streamOrdering) t.eventPushActions
      pushed

section
variable {t t' : PushTables} {pushed removed : List PushAction} {key : ThreadKey}
  {config : PushConfig} {a : PushAction}

theorem counted_of_flag {kind : CountKind} (h : a.flag kind = true) :
    a.counted = true := by
  unfold PushAction.counted
  rw [Bool.or_eq_true]
  cases kind with
  | notif => exact .inl h
  | unread => exact .inr h

theorem exists_flag_of_counted (h : a.counted = true) : ∃ kind, a.flag kind = true := by
  rcases (Bool.or_eq_true _ _).mp h with h | h
  · exact ⟨.notif, h⟩
  · exact ⟨.unread, h⟩

section
variable (h : ∀ receipt, receipt ∈ t'.receiptsFor key ↔ receipt ∈ t.receiptsFor key)
include h

theorem isUnread_congr : t'.isUnread key = t.isUnread key := by
  refine funext fun streamOrdering => Bool.eq_iff_iff.mpr ?_
  rw [isUnread_iff, isUnread_iff]
  exact forall_congr' fun receipt => imp_congr_left (h receipt)

theorem isUpToDate_congr (s : Summary) : t'.IsUpToDate key s ↔ t.IsUpToDate key s := by
  unfold PushTables.IsUpToDate
  split
  · exact forall_congr' fun receipt => imp_congr_left (h receipt)
  next last _ =>
    exact and_congr (h last) (forall_congr' fun receipt => imp_congr_left (h receipt))

end

variable {s : Summary}

/-- An unread push action comes after the receipt that an up-to-date summary was counted for. -/
theorem PushTables.IsUpToDate.last_lt (h : t.IsUpToDate key s) {last streamOrdering : ℤ}
    (hlast : s.lastReceiptStreamOrdering = some last)
    (hunread : t.isUnread key streamOrdering = true) : last < streamOrdering := by
  unfold PushTables.IsUpToDate at h
  rw [hlast] at h
  exact isUnread_iff.mp hunread last h.1

/-! ## Counting under the invariant -/

/-- The unread push actions up to the last rotation and after it. -/
theorem countP_unread_split (actions : List PushAction) (kind : CountKind) (rotated : ℤ) :
    actions.countP (t.unread key kind) =
      (actions.countP fun a => t.unread key kind a && decide (a.streamOrdering ≤ rotated)) +
      actions.countP fun a => t.unread key kind a && decide (rotated < a.streamOrdering) := by
  rw [countP_eq_countP_filter_add actions _ fun a => decide (a.streamOrdering ≤ rotated),
    countP_filter, countP_filter]
  congr 1
  refine countP_congr fun a _ => ?_
  simp only [Bool.and_eq_true, Bool.not_eq_true', decide_eq_false_iff_not, decide_eq_true_eq, not_le]

theorem KeyInv.countP_after (h : KeyInv t pushed removed key) (kind : CountKind) :
    (t.eventPushActions.countP fun a => t.unread key kind a && decide (t.rotatedUpto < a.streamOrdering)) =
      pushed.countP fun a => t.unread key kind a && decide (t.rotatedUpto < a.streamOrdering) := by
  refine (h.kept t.rotatedUpto h.removed_le).countP fun a ha => ?_
  simp only [Bool.and_eq_true] at ha ⊢
  exact ⟨⟨ha.1.1.1, ha.1.2⟩, ha.2⟩

theorem KeyInv.countP_unread_of_needs (h : KeyInv t pushed removed key) (hneeds : t.NeedsActions key)
    (kind : CountKind) :
    t.eventPushActions.countP (t.unread key kind) = pushed.countP (t.unread key kind) := by
  refine (h.complete hneeds).countP fun a ha => ?_
  simp only [Bool.and_eq_true] at ha ⊢
  exact ⟨⟨ha.1.1, counted_of_flag ha.1.2⟩, ha.2⟩

variable {userId roomId threadId : String} {receipt : ReadReceipt}

theorem count_eq_zero_of_usedSummary
    (h : (decide (s.notifCount ≠ 0) || decide (s.unreadCount.getD 0 ≠ 0)) ≠ true) (kind : CountKind) :
    s.count kind = 0 := by
  rw [Ne, Bool.or_eq_true, not_or, decide_eq_true_iff, decide_eq_true_iff, not_ne_iff, not_ne_iff] at h
  cases kind with
  | notif => exact h.1
  | unread => exact h.2

/-- Under the invariant the unread counts of a thread are those of the push actions that were added. -/
theorem KeyInv.count_unread (h : KeyInv t pushed removed ⟨userId, roomId, threadId⟩)
    {order : RowOrder SummaryRow} (hmain : MainLast order) {hasEntityChanged : EntityChanged}
    (hsound : hasEntityChanged.Sound t)
    (hlast : IsLastUnthreaded t userId roomId receipt) (kind : CountKind) :
    ((getUnreadCountsByPosTxn order hasEntityChanged t roomId userId receipt.streamOrdering).thread
        threadId).count kind =
      pushed.countP (t.unread ⟨userId, roomId, threadId⟩ kind) := by
  rw [count_getUnreadCountsByPosTxn hmain hsound]
  set key : ThreadKey := ⟨userId, roomId, threadId⟩
  split
  next s hused =>
    obtain ⟨hlookup, hs⟩ := Option.filter_eq_some_iff.mp hused
    obtain ⟨hdate, hne⟩ := Bool.and_eq_true_iff.mp hs
    have hcounts := h.counts s hlookup ((isUpToDate_iff hlast).mpr hdate)
    -- something unread has been rotated, so that what has not been rotated is unread
    have hrotated : ∀ a : PushAction, t.rotatedUpto < a.streamOrdering →
        t.isUnread key a.streamOrdering = true := by
      intro a hlt
      obtain ⟨kind', hkind'⟩ : ∃ kind', 0 < s.count kind' := by
        rcases (Bool.or_eq_true _ _).mp hne with hne | hne
        · exact ⟨.notif, Nat.pos_of_ne_zero (of_decide_eq_true hne)⟩
        · exact ⟨.unread, Nat.pos_of_ne_zero (of_decide_eq_true hne)⟩
      rw [hcounts kind'] at hkind'
      obtain ⟨a', _, ha'⟩ := countP_pos_iff.mp hkind'
      simp only [Bool.and_eq_true, decide_eq_true_eq] at ha'
      rw [isUnread_iff]
      intro receipt' hmem
      have := isUnread_iff.mp ha'.1.2 receipt' hmem
      omega
    rw [hcounts kind, countP_unread_split pushed kind t.rotatedUpto, ← h.countP_after kind]
    congr 1
    refine countP_congr fun a _ => ?_
    simp only [Bool.and_eq_true, decide_eq_true_eq]
    constructor
    · exact fun ha => ⟨⟨ha.1, hrotated a ha.2⟩, ha.2⟩
    · exact fun ha => ⟨ha.1.1, ha.2⟩
  next hused =>
    have hunread : (t.eventPushActions.countP fun a => a.key = key && a.flag kind &&
        decide (t.latestReceipt userId roomId receipt.streamOrdering threadId < a.streamOrdering)) =
        t.eventPushActions.countP (t.unread key kind) := by
      refine countP_congr fun a _ => ?_
      simp only [Bool.and_eq_true, decide_eq_true_eq, hlast.latestReceipt_lt_iff, key]
    rw [hunread]
    by_cases hneeds : t.NeedsActions key
    · exact h.countP_unread_of_needs hneeds kind
    · -- the summary is up to date and says that nothing unread has been rotated
      obtain ⟨hall, _⟩ := not_or.mp hneeds
      obtain ⟨s, hlookup, hdate⟩ : ∃ s, t.eventPushSummary.lookup key = some s ∧ t.IsUpToDate key s := by
        by_contra hnone
        exact hall fun s hs hdate => hnone ⟨s, hs, hdate⟩
      have hzero : (pushed.countP fun a =>
          t.unread key kind a && decide (a.streamOrdering ≤ t.rotatedUpto)) = 0 := by
        rw [← h.counts s hlookup hdate kind]
        refine count_eq_zero_of_usedSummary (fun hs => ?_) kind
        have : t.usedSummary receipt.streamOrdering key = some s :=
          Option.filter_eq_some_iff.mpr ⟨hlookup, by rw [(isUpToDate_iff hlast).mp hdate, hs]; rfl⟩
        rw [hused] at this
        exact nomatch this
      have hzero' : (t.eventPushActions.countP fun a =>
          t.unread key kind a && decide (a.streamOrdering ≤ t.rotatedUpto)) = 0 := by
        refine countP_eq_zero.mpr fun a hmem ha => ?_
        have hkey : a.key = key := by
          simp only [Bool.and_eq_true, decide_eq_true_eq] at ha
          exact ha.1.1.1
        exact countP_eq_zero.mp hzero a (h.subset a hmem hkey) ha
      rw [countP_unread_split t.eventPushActions kind t.rotatedUpto,
        countP_unread_split pushed kind t.rotatedUpto, hzero, hzero', h.countP_after kind]

end
end Synapse.Push
