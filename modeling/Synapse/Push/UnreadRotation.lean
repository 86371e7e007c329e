import Synapse.Push.UnreadReceipts

/-!
# Rotation keeps the invariant, and what follows for runs

A page counts into the summary of a thread the push actions since the last rotation that come after the
receipt recorded in it.  If the summary is up to date, or there is none, these are the unread ones.

In every run that does no harm to a thread its unread counts are right; the runs at the end show the
harm.
-/

namespace Synapse.Push

open Synapse.Util List
open Bool (and_eq_true not_eq_true')
open PushTables (oldCount pageCount rotatedActions rotatedUpto)

section
variable {t : PushTables} {pushed removed : List PushAction} {key : ThreadKey} {config : PushConfig}

/-! ## Rotation -/

theorem rotatedUpto_le_rotateTo {currentToken : ℤ} (htoken : t.rotatedUpto ≤ currentToken) :
    t.rotatedUpto ≤ (rotateTo config currentToken t).1 := by
  unfold rotateTo
  dsimp only
  split
  next offset hoffset =>
    have hmem := (mem_insertionSort _).mp (mem_of_getElem? hoffset)
    have hlt := of_decide_eq_true (mem_filter.mp hmem).2
    omega
  · exact htoken

variable {kind : CountKind} {a : PushAction}

theorem mem_rotatedActions {rotateTo : ℤ} :
    a ∈ t.rotatedActions rotateTo kind ↔ a ∈ t.eventPushActions ∧ t.rotatedUpto < a.streamOrdering ∧
      a.streamOrdering ≤ rotateTo ∧
      (∀ last, (t.eventPushSummary.lookup a.key).bind Summary.lastReceiptStreamOrdering = some last →
        last < a.streamOrdering) ∧ a.flag kind = true := by
  unfold rotatedActions
  rw [mem_filter]
  simp only [and_eq_true, decide_eq_true_eq, Option.all_eq_true]
  tauto

variable {rotateTo : ℤ}

section
variable (h : KeyInv t pushed removed key) (hdate : ∀ s ∈ t.eventPushSummary.lookup key, t.IsUpToDate key s)
include h hdate

/-- What a page counts for the thread, if it has unread push actions only and the summary is up to
date. -/
theorem KeyInv.pageCount_eq (hpage : ∀ a ∈ t.rotatedActions rotateTo kind, a.key = key →
      t.isUnread key a.streamOrdering = true) :
    t.pageCount rotateTo key kind = pushed.countP fun a => t.unread key kind a &&
      decide (t.rotatedUpto < a.streamOrdering) && decide (a.streamOrdering ≤ rotateTo) := by
  refine Eq.trans ?_ ((h.kept t.rotatedUpto h.removed_le).countP fun a ha => ?_)
  · unfold pageCount rotatedActions
    rw [countP_filter]
    refine countP_congr fun a hmem => ?_
    rw [and_eq_true, decide_eq_true_iff]
    constructor
    · intro ha
      obtain ⟨rfl, hin⟩ := ha
      have hin : a ∈ t.rotatedActions rotateTo kind := mem_filter.mpr ⟨hmem, hin⟩
      have hunread := hpage a hin rfl
      obtain ⟨_, hlt, hle, _, hflag⟩ := mem_rotatedActions.mp hin
      simp only [and_eq_true, decide_eq_true_eq]
      exact ⟨⟨⟨⟨trivial, hflag⟩, hunread⟩, hlt⟩, hle⟩
    · intro ha
      simp only [and_eq_true, decide_eq_true_eq] at ha
      obtain ⟨⟨⟨⟨rfl, hflag⟩, hunread⟩, hlt⟩, hle⟩ := ha
      refine ⟨rfl, (mem_filter.mp (mem_rotatedActions.mpr ⟨hmem, hlt, hle, fun last hlast => ?_, hflag⟩)).2⟩
      -- an up-to-date summary has no receipt recorded that comes after something unread
      obtain ⟨s, hs, hlast⟩ := Option.bind_eq_some_iff.mp hlast
      exact (hdate s hs).last_lt hlast hunread
  · simp only [and_eq_true] at ha ⊢
    exact ⟨⟨ha.1.1.1.1, ha.1.1.2⟩, ha.1.2⟩

theorem KeyInv.oldCount_eq (kind : CountKind) :
    t.oldCount key kind =
      pushed.countP fun a => t.unread key kind a && decide (a.streamOrdering ≤ t.rotatedUpto) := by
  unfold oldCount
  cases hs : t.eventPushSummary.lookup key with
  | some s => exact h.counts s hs (hdate s hs) kind
  | none =>
    refine (countP_eq_zero.mpr fun a hmem ha => ?_).symm
    simp only [and_eq_true, decide_eq_true_eq] at ha
    obtain ⟨⟨⟨hkey, hflag⟩, hunread⟩, hle⟩ := ha
    exact not_lt.mpr hle (h.unsummarised hs a hmem hkey (counted_of_flag hflag) hunread)

/-- The old count and the page together. -/
theorem KeyInv.oldCount_add_pageCount (hle : t.rotatedUpto ≤ rotateTo)
    (hpage : ∀ a ∈ t.rotatedActions rotateTo kind, a.key = key → t.isUnread key a.streamOrdering = true) :
    t.oldCount key kind + t.pageCount rotateTo key kind =
      pushed.countP fun a => t.unread key kind a && decide (a.streamOrdering ≤ rotateTo) := by
  rw [h.oldCount_eq hdate, h.pageCount_eq hdate hpage]
  symm
  rw [countP_eq_countP_filter_add pushed _ fun a => decide (a.streamOrdering ≤ t.rotatedUpto),
    countP_filter, countP_filter]
  congr 1
  · refine countP_congr fun a _ => ?_
    simp only [and_eq_true, decide_eq_true_eq]
    constructor
    · exact fun ha => ⟨ha.1.1, ha.2⟩
    · exact fun ha => ⟨⟨ha.1, ha.2.trans hle⟩, ha.2⟩
  · refine countP_congr fun a _ => ?_
    simp only [and_eq_true, decide_eq_true_eq, not_eq_true', decide_eq_false_iff_not, not_le]
    tauto

end

theorem PushTables.RotatesCleanly.rotatedCount_eq (hclean : t.RotatesCleanly key rotateTo)
    (hdate : ∀ s ∈ t.eventPushSummary.lookup key, t.IsUpToDate key s) {kind' : CountKind}
    (hpos : 0 < t.pageCount rotateTo key kind') (kind : CountKind) :
    t.rotatedCount rotateTo key kind = t.oldCount key kind + t.pageCount rotateTo key kind := by
  unfold PushTables.rotatedCount
  split
  next hzero =>
    rw [hzero, Nat.add_zero]
    unfold oldCount
    cases hs : t.eventPushSummary.lookup key with
    | none => rfl
    | some s => exact (hclean.both s hs (hdate s hs) kind kind' hzero hpos.ne').symm
  · rfl

/-- If the page has push actions of the thread: the summary afterwards is up to date just if the one
before was, or there was none, and then the page has unread push actions of the thread only. -/
theorem PushTables.RotatesCleanly.isUpToDate_iff (hclean : t.RotatesCleanly key rotateTo)
    (hpos : 0 < t.pageCount rotateTo key kind) {s' : Summary} (hlast : s'.lastReceiptStreamOrdering =
      (t.eventPushSummary.lookup key).bind Summary.lastReceiptStreamOrdering)
    (hin : t.InPage rotateTo key s'.streamOrdering) :
    (t.IsUpToDate key s' ↔ ∀ s ∈ t.eventPushSummary.lookup key, t.IsUpToDate key s) ∧
      (t.IsUpToDate key s' → ∀ kind', ∀ a ∈ t.rotatedActions rotateTo kind', a.key = key →
        t.isUnread key a.streamOrdering = true) := by
  obtain ⟨a₀, ha₀, hkey₀⟩ := countP_pos_iff.mp hpos
  cases hold : (t.eventPushSummary.lookup key).bind Summary.lastReceiptStreamOrdering with
  | none =>
    -- no receipt is recorded: the page is unread and the summary ends in it
    have hunread := fun kind' a ha hkey => (hclean.unread hold kind' a ha hkey).1
    refine ⟨iff_of_true ?_ (hclean.unread hold kind a₀ ha₀ (of_decide_eq_true hkey₀)).2, fun _ => hunread⟩
    obtain ⟨kind', a, ha, hkey, heq⟩ := hin
    unfold PushTables.IsUpToDate
    rw [hlast, hold]
    intro receipt hreceipt
    rw [← heq]
    exact isUnread_iff.mp (hunread kind' a ha hkey) receipt hreceipt
  | some last =>
    obtain ⟨s, hs, hslast⟩ := Option.bind_eq_some_iff.mp hold
    have hiff : t.IsUpToDate key s' ↔ t.IsUpToDate key s := by
      unfold PushTables.IsUpToDate
      rw [hlast, hold, hslast]
    refine ⟨hiff.trans ⟨fun hdate s'' hs'' => ?_, fun hall => hall s hs⟩, fun hdate kind' a ha hkey => ?_⟩
    · obtain rfl := Option.some.inj (hs.symm.trans hs'')
      exact hdate
    · -- only push actions after the recorded receipt are counted
      unfold PushTables.IsUpToDate at hdate
      rw [hlast, hold] at hdate
      have hlt := (mem_rotatedActions.mp ha).2.2.2.1 last (hkey ▸ hold)
      exact isUnread_iff.mpr fun receipt hreceipt => lt_of_le_of_lt (hdate.2 receipt hreceipt) hlt

theorem KeyInv.rotateNotifsBefore (h : KeyInv t pushed removed key) (hle : t.rotatedUpto ≤ rotateTo)
    (hclean : t.RotatesCleanly key rotateTo) :
    KeyInv (rotateNotifsBeforeTxn t rotateTo) pushed removed key := by
  -- the page has no push actions of the thread and leaves the summary alone, or it has some
  have hsummary : ((∀ kind, t.pageCount rotateTo key kind = 0) ∧
        (rotateNotifsBeforeTxn t rotateTo).eventPushSummary.lookup key = t.eventPushSummary.lookup key) ∨
      ∃ kind, 0 < t.pageCount rotateTo key kind ∧ ∃ s',
        (rotateNotifsBeforeTxn t rotateTo).eventPushSummary.lookup key = some s' ∧
        s'.lastReceiptStreamOrdering =
          (t.eventPushSummary.lookup key).bind Summary.lastReceiptStreamOrdering ∧
        t.InPage rotateTo key s'.streamOrdering ∧
        ∀ kind, s'.count kind = t.rotatedCount rotateTo key kind := by
    by_cases hzero : ∀ kind, t.pageCount rotateTo key kind = 0
    · exact .inl ⟨hzero, lookup_rotateNotifsBefore_unchanged hzero⟩
    · obtain ⟨kind, hkind⟩ := not_forall.mp hzero
      obtain ⟨so, hin, hlookup⟩ := lookup_rotateNotifsBefore (Nat.pos_of_ne_zero hkind)
      refine .inr ⟨kind, Nat.pos_of_ne_zero hkind, _, hlookup, rfl, hin, fun kind' => ?_⟩
      cases kind' with
      | notif => rfl
      | unread => rfl
  have hempty : (∀ kind, t.pageCount rotateTo key kind = 0) → ∀ kind,
      ∀ a ∈ t.rotatedActions rotateTo kind, a.key = key → t.isUnread key a.streamOrdering = true :=
    fun hzero kind a ha hkey => absurd (decide_eq_true hkey) (countP_eq_zero.mp (hzero kind) a ha)
  exact
    { known := h.known
      removed_le := fun a hmem huser hroom => (h.removed_le a hmem huser hroom).trans hle
      subset := h.subset
      kept := h.kept
      unsummarised := fun hnone a hmem hkey hcounted hunread => by
        rcases hsummary with ⟨hzero, hsame⟩ | ⟨_, _, s', hs', _⟩
        · have hnone' : t.eventPushSummary.lookup key = none := hsame.symm.trans hnone
          obtain ⟨kind, hflag⟩ := exists_flag_of_counted hcounted
          have hcount := h.pageCount_eq (fun s hs => by rw [hnone'] at hs; exact nomatch hs)
            (hempty hzero kind)
          rw [hzero kind] at hcount
          refine not_le.mp fun hle' => countP_eq_zero.mp hcount.symm a hmem ?_
          simp only [and_eq_true, decide_eq_true_eq]
          exact ⟨⟨⟨⟨hkey, hflag⟩, hunread⟩, h.unsummarised hnone' a hmem hkey hcounted hunread⟩, hle'⟩
        · rw [hs'] at hnone
          exact nomatch hnone
      lastReceipt := fun s hs last hlast => by
        rcases hsummary with ⟨_, hsame⟩ | ⟨_, _, s', hs', hlast', _⟩
        · exact h.lastReceipt s (hsame.symm.trans hs) last hlast
        · obtain rfl := Option.some.inj (hs'.symm.trans hs)
          obtain ⟨s₀, hs₀, hlast₀⟩ := Option.bind_eq_some_iff.mp (hlast'.symm.trans hlast)
          exact h.lastReceipt s₀ hs₀ last hlast₀
      counts := fun s hs hdate kind => by
        rcases hsummary with ⟨hzero, hsame⟩ | ⟨kind', hpos, s', hs', hlast', hin, hcount⟩
        · have hs : t.eventPushSummary.lookup key = some s := hsame.symm.trans hs
          have hdate' : ∀ s' ∈ t.eventPushSummary.lookup key, t.IsUpToDate key s' := fun s' hs' => by
            obtain rfl := Option.some.inj (hs.symm.trans hs')
            exact hdate
          have hcount := h.oldCount_add_pageCount hdate' hle (hempty hzero kind)
          rw [hzero kind, Nat.add_zero, oldCount, hs] at hcount
          exact hcount
        · obtain rfl := Option.some.inj (hs'.symm.trans hs)
          obtain ⟨hiff, hpage⟩ := hclean.isUpToDate_iff hpos hlast' hin
          rw [hcount kind, hclean.rotatedCount_eq (hiff.mp hdate) hpos kind]
          exact h.oldCount_add_pageCount (hiff.mp hdate) hle (hpage hdate kind)
      complete := fun hneeds => by
        refine h.complete (hneeds.imp (fun hall => ?_) id)
        rcases hsummary with ⟨_, hsame⟩ | ⟨kind', hpos, s', hs', hlast', hin, _⟩
        · exact fun s hs => hall s (hsame.trans hs)
        · intro s hs hdate
          refine hall s' hs' ((hclean.isUpToDate_iff hpos hlast' hin).1.mpr fun s'' hs'' => ?_)
          obtain rfl := Option.some.inj (hs.symm.trans hs'')
          exact hdate }

/-! ## Removal -/

theorem removeUpto_le (maxStreamOrderingToDelete : ℤ) :
    removeUpto config maxStreamOrderingToDelete t ≤ maxStreamOrderingToDelete := by
  unfold removeUpto
  dsimp only
  split
  next so hoffset =>
    have hmem := (mem_insertionSort _).mp (mem_of_getElem? hoffset)
    obtain ⟨a, ha, rfl⟩ := mem_map.mp hmem
    exact of_decide_eq_true (Bool.and_eq_true_iff.mp (mem_filter.mp ha).2).1
  · exact le_rfl

theorem KeyInv.removeOld (h : KeyInv t pushed removed key) {upto : ℤ} (hupto : upto ≤ t.rotatedUpto)
    (hharmless : ∀ a ∈ t.eventPushActions, a.isOld upto = true → a.key = key → a.counted = true →
      t.isUnread key a.streamOrdering = true → ¬ t.NeedsActions key) :
    KeyInv { t with eventPushActions := t.eventPushActions.filter fun a => !a.isOld upto } pushed
      (removed ++ t.eventPushActions.filter (PushAction.isOld upto)) key where
  known := h.known
  removed_le a hmem huser hroom := by
    rcases mem_append.mp hmem with hmem | hmem
    · exact h.removed_le a hmem huser hroom
    · have hold := (Bool.and_eq_true_iff.mp (mem_filter.mp hmem).2).1
      exact (of_decide_eq_true hold).trans hupto
  subset a hmem hkey := h.subset a (mem_filter.mp hmem).1 hkey
  kept after hafter := by
    refine (h.kept after fun a hmem => hafter a (mem_append_left _ hmem)).filter_left fun a hmem ha => ?_
    simp only [and_eq_true, decide_eq_true_eq] at ha
    obtain ⟨⟨rfl, _⟩, hlt⟩ := ha
    rw [not_eq_true', ← Bool.not_eq_true]
    intro hold
    exact not_le.mpr hlt (hafter a (mem_append_right _ (mem_filter.mpr ⟨hmem, hold⟩)) rfl rfl)
  unsummarised := h.unsummarised
  lastReceipt := h.lastReceipt
  counts := h.counts
  complete hneeds := by
    refine (h.complete hneeds).filter_left fun a hmem ha => ?_
    simp only [and_eq_true, decide_eq_true_eq] at ha
    obtain ⟨⟨hkey, hcounted⟩, hunread⟩ := ha
    rw [not_eq_true', ← Bool.not_eq_true]
    exact fun hold => hharmless a hmem hold hkey hcounted hunread hneeds

/-! ## Runs -/

theorem KeyInv.step {w : PushWorld} (h : KeyInv w.tables w.pushed w.removed key) {step : PushStep}
    (hlegal : step.Legal key.userId key.roomId w) (hharmless : step.Harmless config key w) :
    KeyInv (w.step config step).tables (w.step config step).pushed (w.step config step).removed key := by
  cases step with
  | persistEvent eventId roomId streamOrdering staged => exact h.persistEvent hlegal.1 hlegal.2
  | insertReceipt receipt eventId streamId => exact h.insertReceipt hlegal hharmless
  | handleNewReceipts hasEntityChanged currentToken => exact h.handleNewReceipts hlegal.1 hlegal.2
  | rotateNotifs currentToken =>
    exact h.rotateNotifsBefore (rotatedUpto_le_rotateTo hlegal) hharmless
  | removeOldPushActions maxStreamOrderingToDelete =>
    exact h.removeOld ((removeUpto_le maxStreamOrderingToDelete).trans hlegal) hharmless

theorem KeyInv.run : ∀ {steps : List PushStep} {w : PushWorld}, KeyInv w.tables w.pushed w.removed key →
    w.AllSteps config (fun w step => step.Legal key.userId key.roomId w) steps →
    w.AllSteps config (fun w step => step.Harmless config key w) steps →
    KeyInv (w.run config steps).tables (w.run config steps).pushed (w.run config steps).removed key
  | [], _, h, _, _ => h
  | step :: _, w, h, hlegal, hharmless =>
    KeyInv.run (w := w.step config step) (h.step hlegal.1 hharmless.1) hlegal.2 hharmless.2

/-- Nothing of the user's in the room yet. -/
structure PushWorld.Fresh (w : PushWorld) (userId roomId : String) : Prop where
  actions : ∀ a ∈ w.tables.eventPushActions, ¬ (a.userId = userId ∧ a.roomId = roomId)
  summaries : ∀ threadId, w.tables.eventPushSummary.lookup ⟨userId, roomId, threadId⟩ = none
  receipts : ∀ receipt row, w.tables.receiptsLinearized.lookup receipt = some row →
    ¬ (receipt.userId = userId ∧ receipt.roomId = roomId)
  pushed : w.pushed = []
  removed : w.removed = []

theorem PushWorld.Fresh.keyInv {w : PushWorld} {userId roomId : String} (h : w.Fresh userId roomId)
    (threadId : String) : KeyInv w.tables w.pushed w.removed ⟨userId, roomId, threadId⟩ := by
  have hnone : ∀ p, (∀ a, p a = true → a.key = ⟨userId, roomId, threadId⟩) →
      SameOn p w.tables.eventPushActions w.pushed := by
    intro p hp
    unfold SameOn
    rw [h.pushed, filter_nil, filter_eq_nil_iff]
    intro a hmem ha
    obtain ⟨huser, hroom, _⟩ := ThreadKey.mk.inj (hp a ha)
    exact h.actions a hmem ⟨huser, hroom⟩
  exact
    { known := fun receipt row hlookup huser hroom => absurd ⟨huser, hroom⟩ (h.receipts receipt row hlookup)
      removed_le := fun a hmem => by rw [h.removed] at hmem; exact nomatch hmem
      subset := fun a hmem hkey => by
        obtain ⟨huser, hroom, _⟩ := ThreadKey.mk.inj hkey
        exact absurd ⟨huser, hroom⟩ (h.actions a hmem)
      kept := fun after _ => hnone _ fun a ha => by
        simp only [and_eq_true, decide_eq_true_eq] at ha
        exact ha.1.1
      unsummarised := fun _ a hmem => by rw [h.pushed] at hmem; exact nomatch hmem
      lastReceipt := fun s hs => by rw [h.summaries] at hs; exact nomatch hs
      counts := fun s hs => by rw [h.summaries] at hs; exact nomatch hs
      complete := fun _ => hnone _ fun a ha => by
        simp only [and_eq_true, decide_eq_true_eq] at ha
        exact ha.1.1 }

theorem isUnread_iff_latest {userId roomId threadId : String} {receipt : ReadReceipt}
    (hlast : IsLastUnthreaded t userId roomId receipt) (so : ℤ) :
    t.isUnread ⟨userId, roomId, threadId⟩ so =
      (decide (receipt.streamOrdering < so) && ((t.readReceipts userId roomId).filter
        (·.threadId = some threadId)).all (·.streamOrdering < so)) := by
  rw [Bool.eq_iff_iff, isUnread_iff, and_eq_true, decide_eq_true_iff, all_eq_true]
  constructor
  · intro hall
    refine ⟨hall _ (mem_receiptsFor.mpr ⟨receipt, hlast.mem, coversThread_iff.mpr (.inl hlast.unthreaded),
      rfl⟩), fun receipt' hmem => decide_eq_true ?_⟩
    obtain ⟨hmem, hthread⟩ := mem_filter.mp hmem
    exact hall _ (mem_receiptsFor.mpr ⟨receipt', hmem,
      coversThread_iff.mpr (.inr (of_decide_eq_true hthread)), rfl⟩)
  · intro hall so' hso'
    obtain ⟨receipt', hmem, hcovers, rfl⟩ := mem_receiptsFor.mp hso'
    rcases coversThread_iff.mp hcovers with hthread | hthread
    · exact lt_of_le_of_lt (hlast.latest receipt' hmem hthread) hall.1
    · exact of_decide_eq_true (hall.2 receipt' (mem_filter.mpr ⟨hmem, decide_eq_true hthread⟩))

end

/-- In every run that does no harm to a thread, whenever the user has an unthreaded receipt in the room
and the main timeline's summary is returned last, the unread counts of the thread are the numbers of push
actions ever added that come after that receipt and after the receipts in the thread. -/
theorem unreadCounts_of_harmless (config : PushConfig) (order : RowOrder SummaryRow)
    (hmain : MainLast order) (w : PushWorld) (userId roomId threadId : String)
    (hfresh : w.Fresh userId roomId) (steps : List PushStep)
    (hlegal : w.AllSteps config (fun w step => step.Legal userId roomId w) steps)
    (hharmless : w.AllSteps config (fun w step => step.Harmless config ⟨userId, roomId, threadId⟩ w) steps)
    (hasEntityChanged : EntityChanged) (hsound : hasEntityChanged.Sound (w.run config steps).tables)
    (receipt : ReadReceipt) (hlast : getLastUnthreadedReceiptForUserTxn (w.run config steps).tables
      userId roomId = some receipt) (kind : CountKind) :
    ((getUnreadCountsByPosTxn order hasEntityChanged (w.run config steps).tables roomId userId
        receipt.streamOrdering).thread threadId).count kind =
      (w.run config steps).pushed.countP fun a => a.key = ⟨userId, roomId, threadId⟩ && a.flag kind &&
        (decide (receipt.streamOrdering < a.streamOrdering) &&
          (((w.run config steps).tables.readReceipts userId roomId).filter
            (·.threadId = some threadId)).all (·.streamOrdering < a.streamOrdering)) := by
  have hinv := (hfresh.keyInv threadId).run hlegal hharmless
  have hlast := isLastUnthreaded_of_getLast hlast
  rw [hinv.count_unread hmain hsound hlast kind]
  refine countP_congr fun a _ => ?_
  rw [PushTables.unread, isUnread_iff_latest hlast]

/-! ## Runs of a user -/

section

instance {p : CountKind → Prop} [DecidablePred p] : Decidable (∀ kind, p kind) :=
  decidable_of_iff (p .notif ∧ p .unread)
    ⟨fun h kind => match kind with | .notif => h.1 | .unread => h.2, fun h => ⟨h _, h _⟩⟩

instance (t : PushTables) (key : ThreadKey) : Decidable (t.Unhandled key) :=
  inferInstanceAs (Decidable (∃ row ∈ t.receiptsLinearized.items, _))

instance (t : PushTables) (key : ThreadKey) : Decidable (t.NeedsActions key) :=
  inferInstanceAs (Decidable (_ ∨ _))

instance (t : PushTables) (key : ThreadKey) (rotateTo : ℤ) : Decidable (t.RotatesCleanly key rotateTo) :=
  decidable_of_iff (_ ∧ _) ⟨fun h => ⟨h.1, h.2⟩, fun h => ⟨h.unread, h.both⟩⟩

instance (w : PushWorld) (key : ThreadKey) (streamOrdering : ℤ) :
    Decidable (w.ReadsNothing key streamOrdering) := inferInstanceAs (Decidable (∀ a ∈ w.pushed, _))

instance (config : PushConfig) (key : ThreadKey) (w : PushWorld) :
    ∀ step, Decidable (PushStep.Harmless config key w step)
  | .persistEvent .. => .isTrue trivial
  | .insertReceipt .. => inferInstanceAs (Decidable (_ → _))
  | .handleNewReceipts .. => .isTrue trivial
  | .rotateNotifs _ => inferInstanceAs (Decidable (PushTables.RotatesCleanly _ _ _))
  | .removeOldPushActions _ => inferInstanceAs (Decidable (∀ a ∈ _, _))

def emptyWorld : PushWorld := ⟨⟨∅, ∅, [], ∅, 0, 0⟩, [], []⟩

theorem emptyWorld_fresh (userId roomId : String) : emptyWorld.Fresh userId roomId :=
  ⟨fun _ hmem => absurd hmem not_mem_nil, fun _ => rfl, fun _ _ h => (nomatch h), rfl, rfl⟩

def smallConfig : PushConfig := ⟨fun _ => true, fun _ => true, 10000⟩

/-- An event in Alice's room that notifies them, in the thread. -/
def notifies (eventId : String) (streamOrdering : ℤ) (threadId : String) : PushStep :=
  .persistEvent eventId "!room" streamOrdering [⟨"@alice", threadId, "", true, true, false⟩]

/-- Alice reads the room up to the event. -/
def reads (eventId : String) (streamId : ℕ) : PushStep :=
  .insertReceipt ⟨"!room", "m.read", "@alice", none⟩ eventId streamId

/-- What Alice's unread counts of a thread are at the end of a run. -/
def aliceCounts (order : RowOrder SummaryRow) (unthreaded : ℤ) (threadId : String)
    (steps : List PushStep) : NotifCounts :=
  (getUnreadCountsByPosTxn order (fun _ _ => true) (emptyWorld.run smallConfig steps).tables "!room"
    "@alice" unthreaded).thread threadId

/-- Two events are rotated, the first one is read and the receipt handled; a third one is rotated and
its push action removed, and a fourth one comes. -/
def quietSteps : List PushStep :=
  [notifies "$1" 1 mainTimeline, notifies "$2" 2 "$2", .rotateNotifs 2, reads "$1" 1,
    .handleNewReceipts (fun _ _ => true) 1, notifies "$3" 3 mainTimeline, .rotateNotifs 3,
    .removeOldPushActions 3, notifies "$4" 4 mainTimeline]

instance decidableAllSteps {P : PushWorld → PushStep → Prop} [∀ w step, Decidable (P w step)]
    (config : PushConfig) : ∀ w steps, Decidable (PushWorld.AllSteps config P w steps)
  | _, [] => .isTrue trivial
  | w, step :: steps =>
    have := decidableAllSteps (P := P) config (w.step config step) steps
    inferInstanceAs (Decidable (P w step ∧ _))

theorem quietSteps_legal : emptyWorld.AllSteps smallConfig
    (fun w step => step.Legal "@alice" "!room" w) quietSteps := by
  refine ⟨⟨by decide +kernel, by decide +kernel⟩, ⟨by decide +kernel, by decide +kernel⟩,
    show rotatedUpto _ ≤ 2 by decide +kernel,
    fun _ _ => ⟨by decide, 1, by decide +kernel, by decide +kernel⟩,
    ⟨fun _ _ _ _ => rfl, by decide +kernel⟩, ⟨by decide +kernel, by decide +kernel⟩,
    show rotatedUpto _ ≤ 3 by decide +kernel, show 3 ≤ rotatedUpto _ by decide +kernel,
    ⟨by decide +kernel, by decide +kernel⟩, trivial⟩

/-- Two of the events are unread in the main timeline; one of them has been removed. -/
theorem unreadCounts_of_harmless_quiet :
    (aliceCounts mainLastOrder 1 mainTimeline quietSteps).count .notif = 2 := by
  have hlast : getLastUnthreadedReceiptForUserTxn (emptyWorld.run smallConfig quietSteps).tables
      "@alice" "!room" = some ⟨none, "$1", 1⟩ := by rfl
  refine (unreadCounts_of_harmless smallConfig mainLastOrder mainLast_mainLastOrder emptyWorld "@alice"
    "!room" mainTimeline (emptyWorld_fresh _ _) quietSteps quietSteps_legal (by decide +kernel)
    (fun _ _ => true) (fun _ _ _ _ => rfl) ⟨none, "$1", 1⟩ hlast .notif).trans ?_
  decide +kernel

/-- Two events are rotated and the first one is read. -/
def staleSteps : List PushStep :=
  [notifies "$1" 1 mainTimeline, notifies "$2" 2 mainTimeline, .rotateNotifs 2, reads "$1" 1]

/-- One event is unread, but two are returned: the summary, in which no receipt is recorded, is taken for
up to date. -/
theorem unreadCounts_stale :
    emptyWorld.AllSteps smallConfig (fun w step => step.Legal "@alice" "!room" w) staleSteps ∧
      getLastUnthreadedReceiptForUserTxn (emptyWorld.run smallConfig staleSteps).tables "@alice"
        "!room" = some ⟨none, "$1", 1⟩ ∧
      ((emptyWorld.run smallConfig staleSteps).pushed.countP fun a => decide (1 < a.streamOrdering)) = 1 ∧
      aliceCounts mainLastOrder 1 mainTimeline staleSteps = ⟨2, 2, 0⟩ := by
  refine ⟨⟨⟨by decide +kernel, by decide +kernel⟩, ⟨by decide +kernel, by decide +kernel⟩,
    show rotatedUpto _ ≤ 2 by decide +kernel,
    fun _ _ => ⟨by decide, 1, by decide +kernel, by decide +kernel⟩, trivial⟩, by rfl,
    by decide +kernel, by decide +kernel⟩

/-- Alice has read an event that notifies nobody. -/
def readSteps : List PushStep :=
  [.persistEvent "$0" "!room" 1 [], reads "$0" 1, .handleNewReceipts (fun _ _ => true) 1]

-- A highlighted push action is kept when it is read, and counted when it is rotated.
example : (aliceCounts mainLastOrder 1 mainTimeline
    [.persistEvent "$1" "!room" 1 [⟨"@alice", mainTimeline, "", true, true, true⟩], reads "$1" 1,
      .handleNewReceipts (fun _ _ => true) 1, notifies "$2" 2 mainTimeline,
      .rotateNotifs 2]).notifyCount = 2 := by
  decide +kernel

-- A page without notifications sets their count to 0.
example : (aliceCounts mainLastOrder 1 mainTimeline (readSteps ++
    [notifies "$1" 2 mainTimeline, .rotateNotifs 2,
      .persistEvent "$2" "!room" 3 [⟨"@alice", mainTimeline, "", false, true, false⟩],
      .rotateNotifs 3])).notifyCount = 0 := by
  decide +kernel

-- An unthreaded receipt before the one in the thread makes the summary useless; what it counts is
-- removed.
example : (aliceCounts mainLastOrder 1 "$2"
    [notifies "$1" 1 mainTimeline, notifies "$2" 2 "$2", .rotateNotifs 2,
      .insertReceipt ⟨"!room", "m.read", "@alice", some "$2"⟩ "$2" 1,
      .handleNewReceipts (fun _ _ => true) 1, reads "$1" 2, .handleNewReceipts (fun _ _ => true) 2,
      notifies "$3" 3 "$2", .rotateNotifs 3, .removeOldPushActions 3]).notifyCount = 0 := by
  decide +kernel

-- With the summary of a thread after that of the main timeline, an event of the main timeline counts
-- for the thread.
example : ((["$2", mainTimeline].map fun threadId =>
    (aliceCounts ⟨fun rows => rows, fun rows => .refl rows⟩ 1 threadId (readSteps ++
      [notifies "$1" 2 mainTimeline, notifies "$2" 3 "$2", .rotateNotifs 3,
        notifies "$3" 4 mainTimeline])).notifyCount)) = [2, 1] := by
  decide +kernel

end
end Synapse.Push
