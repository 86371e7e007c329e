import Synapse.Push.UnreadRuns

/-!
# Events and receipts keep the invariant

A new push action is not rotated yet and is there.  A new receipt makes the push actions up to it read:
since nothing after it has been removed, all that is unread now is there.  A summary stays up to date
only if the receipt does not go further than those before it, or if the summary has no receipt recorded
and ends after it; in the second case the counts are right if the receipt reads nothing.  When the
receipt is handled, the summary is counted again from the push actions.
-/

namespace Synapse.Push

open Synapse.Util List

section
variable {t t' : PushTables} {pushed removed : List PushAction} {key : ThreadKey}
  {config : PushConfig}

/-- A change of the tables of which the thread notices at most new push actions. -/
theorem KeyInv.of_same {new pushed' : List PushAction} (h : KeyInv t pushed removed key)
    (hknown : ∀ receipt row, t'.receiptsLinearized.lookup receipt = some row →
      receipt.userId = key.userId → receipt.roomId = key.roomId →
        receipt.receiptType ∈ readReceiptTypes ∧ (t'.eventIn key.roomId row.eventId).isSome = true)
    (hrec : ∀ so, so ∈ t'.receiptsFor key ↔ so ∈ t.receiptsFor key)
    (hactions : t'.eventPushActions = t.eventPushActions ++ new) (hpushed : pushed' = pushed ++ new)
    (hnew : ∀ a ∈ new, t.rotatedUpto < a.streamOrdering)
    (hsummary : t'.eventPushSummary.lookup key = t.eventPushSummary.lookup key)
    (hrotated : t'.rotatedUpto = t.rotatedUpto)
    (hunhandled : t'.Unhandled key → t.Unhandled key) : KeyInv t' pushed' removed key where
  known := hknown
  removed_le := hrotated ▸ h.removed_le
  subset a hmem hkey := by
    rw [hactions] at hmem
    rw [hpushed]
    exact mem_append.mpr ((mem_append.mp hmem).imp_left fun hmem => h.subset a hmem hkey)
  kept after hafter := by
    rw [hactions, hpushed, isUnread_congr hrec]
    exact (h.kept after hafter).append new
  unsummarised hnone a hmem hkey hcounted hunread := by
    rw [hsummary] at hnone
    rw [isUnread_congr hrec] at hunread
    rw [hpushed] at hmem
    rw [hrotated]
    rcases mem_append.mp hmem with hmem | hmem
    · exact h.unsummarised hnone a hmem hkey hcounted hunread
    · exact hnew a hmem
  lastReceipt s hlookup last hlast := by
    obtain ⟨so, hso, hle⟩ := h.lastReceipt s (hsummary ▸ hlookup) last hlast
    exact ⟨so, (hrec so).mpr hso, hle⟩
  counts s hlookup hdate kind := by
    unfold PushTables.unread
    rw [isUnread_congr hrec, hrotated, hpushed, countP_append,
      h.counts s (hsummary ▸ hlookup) ((isUpToDate_congr hrec s).mp hdate) kind]
    refine (Nat.add_eq_left.mpr (countP_eq_zero.mpr fun a hmem ha => ?_)).symm
    -- the new push actions have not been rotated
    exact absurd (hnew a hmem) (not_lt.mpr (of_decide_eq_true (Bool.and_eq_true_iff.mp ha).2))
  complete hneeds := by
    rw [hactions, hpushed, isUnread_congr hrec]
    refine (h.complete (hneeds.imp (fun hall s hs hdate => ?_) hunhandled)).append new
    exact hall s (hsummary.symm ▸ hs) ((isUpToDate_congr hrec s).mpr hdate)

/-! ## New events -/

variable {staged : List StagedAction} {streamOrdering : ℤ} {eventId roomId : String}

theorem eventIn_persistEvent {eventId' roomId' : String} (hnew : t.events.lookup eventId = none)
    (hknown : (t.eventIn roomId' eventId').isSome = true) :
    (t.persistEvent eventId roomId streamOrdering staged).eventIn roomId' eventId' =
      t.eventIn roomId' eventId' := by
  have hne : eventId' ≠ eventId := by
    intro heq
    unfold PushTables.eventIn at hknown
    rw [heq, hnew] at hknown
    exact nomatch hknown
  unfold PushTables.eventIn PushTables.persistEvent
  rw [AList.lookup_insert_ne hne]

theorem KeyInv.receiptsFor_persistEvent (h : KeyInv t pushed removed key)
    (hnew : t.events.lookup eventId = none) :
    (t.persistEvent eventId roomId streamOrdering staged).receiptsFor key = t.receiptsFor key := by
  unfold PushTables.receiptsFor PushTables.readReceipts
  congr 2
  refine filterMap_congr fun row hrow => ?_
  split
  next hkey =>
    obtain ⟨_, hknown⟩ := h.known row.1 row.2 (Dict.mem_items.mp hrow) hkey.1 hkey.2.1
    rw [eventIn_persistEvent hnew hknown]
  · rfl

theorem KeyInv.persistEvent (h : KeyInv t pushed removed key)
    (hnew : t.events.lookup eventId = none) (hlt : t.rotatedUpto < streamOrdering) :
    KeyInv (t.persistEvent eventId roomId streamOrdering staged)
      (pushed ++ pushActionsFor eventId roomId streamOrdering staged) removed key := by
  have hrec : (t.persistEvent eventId roomId streamOrdering staged).receiptsFor key =
      t.receiptsFor key := h.receiptsFor_persistEvent hnew
  refine h.of_same (fun receipt row hlookup huser hroom => ?_) (fun _ => by rw [hrec]) rfl rfl
    (fun a ha => ?_) rfl rfl id
  · obtain ⟨htype, hknown⟩ := h.known receipt row hlookup huser hroom
    exact ⟨htype, by rw [eventIn_persistEvent hnew hknown]; exact hknown⟩
  · obtain ⟨_, _, rfl⟩ := mem_map.mp ha
    exact hlt

/-! ## New receipts -/

def PushTables.withReceipt (t : PushTables) (receipt : ReceiptKey) (row : Receipt) : PushTables :=
  { t with receiptsLinearized := t.receiptsLinearized.insert receipt row }

variable {receipt : ReceiptKey} {row : Receipt} {streamOrdering : ℤ}

/-- The receipt is in the thread's room, covers it, and comes after the one that it replaces. -/
structure CoversNewer (t : PushTables) (key : ThreadKey) (receipt : ReceiptKey) (row : Receipt)
    (streamOrdering : ℤ) : Prop where
  userId : receipt.userId = key.userId
  roomId : receipt.roomId = key.roomId
  receiptType : receipt.receiptType ∈ readReceiptTypes
  covers : coversThread key.threadId receipt.threadId = true
  event : t.eventIn key.roomId row.eventId = some streamOrdering
  newer : ∀ row', t.receiptsLinearized.lookup receipt = some row' →
    ∀ so, t.eventIn key.roomId row'.eventId = some so → so < streamOrdering

section
variable (h : CoversNewer t key receipt row streamOrdering)
include h

theorem CoversNewer.mem : streamOrdering ∈ (t.withReceipt receipt row).receiptsFor key :=
  mem_receiptsFor_iff.mpr ⟨receipt, row, AList.lookup_insert _, h.userId, h.roomId, h.receiptType,
    h.covers, h.event⟩

theorem CoversNewer.eq_or_mem {so : ℤ} (hmem : so ∈ (t.withReceipt receipt row).receiptsFor key) :
    so = streamOrdering ∨ so ∈ t.receiptsFor key := by
  obtain ⟨receipt', row', hlookup, huser, hroom, htype, hcovers, hevent⟩ := mem_receiptsFor_iff.mp hmem
  rcases Dict.lookup_insert_cases hlookup with ⟨rfl, rfl⟩ | ⟨_, hlookup⟩
  · exact .inl (Option.some.inj (hevent.symm.trans h.event))
  · exact .inr (mem_receiptsFor_iff.mpr ⟨receipt', row', hlookup, huser, hroom, htype, hcovers, hevent⟩)

theorem CoversNewer.exists_ge {so : ℤ} (hmem : so ∈ t.receiptsFor key) :
    ∃ so' ∈ (t.withReceipt receipt row).receiptsFor key, so ≤ so' := by
  obtain ⟨receipt', row', hlookup, huser, hroom, htype, hcovers, hevent⟩ := mem_receiptsFor_iff.mp hmem
  by_cases heq : receipt' = receipt
  · exact ⟨_, h.mem, (h.newer row' (heq ▸ hlookup) so hevent).le⟩
  · refine ⟨so, mem_receiptsFor_iff.mpr ⟨receipt', row', ?_, huser, hroom, htype, hcovers, hevent⟩, le_rfl⟩
    exact (AList.lookup_insert_ne heq).trans hlookup

theorem CoversNewer.isUnread_iff_and {bound : ℤ} : (t.withReceipt receipt row).isUnread key bound = true ↔
      t.isUnread key bound = true ∧ streamOrdering < bound := by
  rw [isUnread_iff, isUnread_iff]
  constructor
  · intro hall
    refine ⟨fun so hmem => ?_, hall _ h.mem⟩
    obtain ⟨so', hmem', hle⟩ := h.exists_ge hmem
    exact hle.trans_lt (hall so' hmem')
  · intro hall so hmem
    rcases h.eq_or_mem hmem with rfl | hmem
    · exact hall.2
    · exact hall.1 so hmem

/-- A summary that is up to date afterwards was so before, and has a receipt recorded that is at least
as late, or ends after the new one. -/
theorem CoversNewer.isUpToDate {s : Summary}
    (hlast : ∀ last, s.lastReceiptStreamOrdering = some last → ∃ so ∈ t.receiptsFor key, last ≤ so)
    (hdate : (t.withReceipt receipt row).IsUpToDate key s) : t.IsUpToDate key s ∧
      match s.lastReceiptStreamOrdering with
      | none => streamOrdering < s.streamOrdering
      | some _ => ∃ so ∈ t.receiptsFor key, streamOrdering ≤ so := by
  unfold PushTables.IsUpToDate at hdate ⊢
  cases hs : s.lastReceiptStreamOrdering with
  | none =>
    rw [hs] at hdate
    refine ⟨fun so hmem => ?_, hdate _ h.mem⟩
    obtain ⟨so', hmem', hle⟩ := h.exists_ge hmem
    exact hle.trans_lt (hdate so' hmem')
  | some last =>
    rw [hs] at hdate
    obtain ⟨hmem, hle⟩ := hdate
    have hle' : ∀ so ∈ t.receiptsFor key, so ≤ last := by
      intro so hso
      obtain ⟨so', hso', hge⟩ := h.exists_ge hso
      exact hge.trans (hle so' hso')
    obtain ⟨so, hso, hlast⟩ := hlast last hs
    obtain rfl : so = last := le_antisymm (hle' so hso) hlast
    exact ⟨⟨hso, hle'⟩, so, hso, hle _ h.mem⟩

end

variable (h : KeyInv t pushed removed key)

include h in
theorem KeyInv.withReceipt (hnew : CoversNewer t key receipt row streamOrdering)
    (hremoved : ∀ a ∈ removed, a.userId = key.userId → a.roomId = key.roomId →
      a.streamOrdering ≤ streamOrdering)
    (hharmless : ∀ s, t.eventPushSummary.lookup key = some s → s.lastReceiptStreamOrdering = none →
      streamOrdering < s.streamOrdering → ∀ a ∈ pushed, a.key = key → a.counted = true →
        t.isUnread key a.streamOrdering = true → streamOrdering < a.streamOrdering) :
    KeyInv (t.withReceipt receipt row) pushed removed key where
  known receipt' row' hlookup huser hroom := by
    rcases Dict.lookup_insert_cases hlookup with ⟨rfl, rfl⟩ | ⟨_, hlookup⟩
    · exact ⟨hnew.receiptType, Option.isSome_iff_exists.mpr ⟨_, hnew.event⟩⟩
    · exact h.known receipt' row' hlookup huser hroom
  removed_le := h.removed_le
  subset := h.subset
  kept after hafter := (h.kept after hafter).mono fun a ha => by
    simp only [Bool.and_eq_true, hnew.isUnread_iff_and] at ha ⊢
    exact ⟨⟨ha.1.1, ha.1.2.1⟩, ha.2⟩
  unsummarised hnone a hmem hkey hcounted hunread :=
    h.unsummarised hnone a hmem hkey hcounted (hnew.isUnread_iff_and.mp hunread).1
  lastReceipt s hlookup last hlast := by
    obtain ⟨so, hso, hle⟩ := h.lastReceipt s hlookup last hlast
    obtain ⟨so', hso', hge⟩ := hnew.exists_ge hso
    exact ⟨so', hso', hle.trans hge⟩
  counts s hlookup hdate kind := by
    obtain ⟨hdate, hs⟩ := hnew.isUpToDate (h.lastReceipt s hlookup) hdate
    refine (h.counts s hlookup hdate kind).trans (countP_congr fun a hmem => ?_)
    simp only [Bool.and_eq_true, hnew.isUnread_iff_and]
    -- the receipt reads nothing that was counted
    have hlt : a.key = key → a.flag kind = true → t.isUnread key a.streamOrdering = true →
        streamOrdering < a.streamOrdering := by
      intro hkey hflag hunread
      cases hlast : s.lastReceiptStreamOrdering with
      | none =>
        rw [hlast] at hs
        exact hharmless s hlookup hlast hs a hmem hkey (counted_of_flag hflag) hunread
      | some last =>
        rw [hlast] at hs
        obtain ⟨so, hso, hle⟩ := hs
        exact lt_of_le_of_lt hle (isUnread_iff.mp hunread so hso)
    constructor
    · intro ha
      exact ⟨⟨ha.1.1, ha.1.2, hlt (of_decide_eq_true ha.1.1.1) ha.1.1.2 ha.1.2⟩, ha.2⟩
    · exact fun ha => ⟨⟨ha.1.1, ha.1.2.1⟩, ha.2⟩
  complete _ := (h.kept streamOrdering hremoved).mono fun a ha => by
    simp only [Bool.and_eq_true, hnew.isUnread_iff_and, decide_eq_true_eq] at ha ⊢
    exact ⟨⟨ha.1.1, ha.2.1⟩, ha.2.2⟩

include h in
/-- The receipt is for another user, another room or another thread. -/
theorem KeyInv.withReceipt_of_not_covers
    (hcovers : ¬ (receipt.userId = key.userId ∧ receipt.roomId = key.roomId ∧
      coversThread key.threadId receipt.threadId = true))
    (hknown : receipt.userId = key.userId → receipt.roomId = key.roomId →
      receipt.receiptType ∈ readReceiptTypes ∧ (t.eventIn key.roomId row.eventId).isSome = true) :
    KeyInv (t.withReceipt receipt row) pushed removed key := by
  have hlookup : ∀ receipt' row', receipt'.userId = key.userId → receipt'.roomId = key.roomId →
      coversThread key.threadId receipt'.threadId = true →
      ((t.withReceipt receipt row).receiptsLinearized.lookup receipt' = some row' ↔
        t.receiptsLinearized.lookup receipt' = some row') := by
    intro receipt' row' huser hroom hthread
    have hne : receipt' ≠ receipt := fun heq =>
      hcovers ⟨heq ▸ huser, heq ▸ hroom, heq ▸ hthread⟩
    rw [PushTables.withReceipt, AList.lookup_insert_ne hne]
  refine h.of_same ?_ (fun so => ?_) (append_nil _).symm (append_nil _).symm (nofun) rfl rfl ?_
  · intro receipt' row' hlookup' huser hroom
    rcases Dict.lookup_insert_cases hlookup' with ⟨rfl, rfl⟩ | ⟨_, hlookup'⟩
    · exact hknown huser hroom
    · exact h.known receipt' row' hlookup' huser hroom
  · rw [mem_receiptsFor_iff, mem_receiptsFor_iff]
    refine exists_congr fun receipt' => exists_congr fun row' => ?_
    constructor
    · rintro ⟨hrow, huser, hroom, htype, hthread, hevent⟩
      exact ⟨(hlookup receipt' row' huser hroom hthread).mp hrow, huser, hroom, htype, hthread, hevent⟩
    · rintro ⟨hrow, huser, hroom, htype, hthread, hevent⟩
      exact ⟨(hlookup receipt' row' huser hroom hthread).mpr hrow, huser, hroom, htype, hthread, hevent⟩
  · rintro ⟨⟨receipt', row'⟩, hitem, huser, hroom, hthread, hlt⟩
    refine ⟨(receipt', row'), Dict.mem_items.mpr ?_, huser, hroom, hthread, hlt⟩
    exact (hlookup receipt' row' huser hroom hthread).mp (Dict.mem_items.mp hitem)

theorem eventIn_eq_some (h : t.eventIn roomId eventId = some streamOrdering) :
    t.events.lookup eventId = some ⟨roomId, streamOrdering⟩ := by
  unfold PushTables.eventIn at h
  split at h
  next event hlookup =>
    obtain ⟨hroom, h⟩ := Option.ite_none_right_eq_some.mp h
    rw [hlookup, ← hroom, ← Option.some.inj h]
  · exact nomatch h

variable {streamId : ℕ}

theorem insertLinearizedReceiptTxn_eq_some
    (h : insertLinearizedReceiptTxn t receipt eventId streamId = some t') :
    ∃ row, row.eventId = eventId ∧ t' = t.withReceipt receipt row ∧
      ∀ so, t.eventIn receipt.roomId eventId = some so →
        ∀ row', t.receiptsLinearized.lookup receipt = some row' →
          ∀ so', t.eventIn receipt.roomId row'.eventId = some so' → so' < so := by
  obtain ⟨hnewer, h⟩ := Option.ite_none_left_eq_some.mp h
  refine ⟨_, rfl, (Option.some.inj h).symm, fun so hevent row' hrow' so' hevent' => ?_⟩
  refine not_le.mp fun hle => hnewer ?_
  rw [eventIn_eq_some hevent, hrow', Option.bind_some, hevent']
  exact decide_eq_true hle

include h in
theorem KeyInv.insertReceipt (hlegal : PushStep.Legal key.userId key.roomId ⟨t, pushed, removed⟩
      (.insertReceipt receipt eventId streamId))
    (hharmless : PushStep.Harmless config key ⟨t, pushed, removed⟩
      (.insertReceipt receipt eventId streamId)) :
    KeyInv ((insertLinearizedReceiptTxn t receipt eventId streamId).getD t) pushed removed key := by
  cases hinsert : insertLinearizedReceiptTxn t receipt eventId streamId with
  | none => exact h
  | some t' =>
    obtain ⟨row, rfl, rfl, hnewer⟩ := insertLinearizedReceiptTxn_eq_some hinsert
    by_cases hcovers : receipt.userId = key.userId ∧ receipt.roomId = key.roomId ∧
        coversThread key.threadId receipt.threadId = true
    · obtain ⟨huser, hroom, hthread⟩ := hcovers
      obtain ⟨htype, so, hevent, hremoved⟩ := hlegal huser hroom
      have hnew : CoversNewer t key receipt row so :=
        ⟨huser, hroom, htype, hthread, hevent, hroom ▸ hnewer so (hroom ▸ hevent)⟩
      refine h.withReceipt hnew hremoved fun s hs hlast => ?_
      exact hharmless huser hroom hthread s hs hlast so hevent
    · refine h.withReceipt_of_not_covers hcovers fun huser hroom => ?_
      obtain ⟨htype, so, hevent, _⟩ := hlegal huser hroom
      exact ⟨htype, Option.isSome_iff_exists.mpr ⟨so, hevent⟩⟩

/-! ## Handling receipts -/

variable {hasEntityChanged : EntityChanged} {r : NewReceipt}

/-- What handling a receipt does not touch. -/
structure SameReceipts (t t' : PushTables) : Prop where
  events : t'.events = t.events
  receiptsLinearized : t'.receiptsLinearized = t.receiptsLinearized
  rotatedUpto : t'.rotatedUpto = t.rotatedUpto
  lastReceiptStreamId : t'.lastReceiptStreamId = t.lastReceiptStreamId

theorem SameReceipts.eventIn (h : SameReceipts t t') : t'.eventIn = t.eventIn := by
  unfold PushTables.eventIn
  rw [h.events]

theorem SameReceipts.receiptsFor (h : SameReceipts t t') : t'.receiptsFor = t.receiptsFor := by
  unfold PushTables.receiptsFor PushTables.readReceipts
  rw [h.receiptsLinearized, h.eventIn]

theorem SameReceipts.unhandled_iff (h : SameReceipts t t') : t'.Unhandled key ↔ t.Unhandled key := by
  unfold PushTables.Unhandled
  rw [h.receiptsLinearized, h.lastReceiptStreamId]

theorem handleNewReceipt_frame (hasEntityChanged : EntityChanged) (rotated : ℤ) (t : PushTables)
    (r : NewReceipt) :
    SameReceipts t (handleNewReceipt hasEntityChanged rotated t r) ∧
      (handleNewReceipt hasEntityChanged rotated t r).eventPushActions =
        (t.deleteRead r).eventPushActions := by
  unfold handleNewReceipt
  cases r.threadId with
  | none => exact ⟨⟨rfl, rfl, rfl, rfl⟩, rfl⟩
  | some threadId => exact ⟨⟨rfl, rfl, rfl, rfl⟩, rfl⟩

/-- Unread push actions are not deleted. -/
theorem sameOn_deleteRead {p : PushAction → Bool}
    (hr : r.covers key = true → r.streamOrdering ∈ t.receiptsFor key)
    (hp : ∀ a, p a = true → a.key = key ∧ t.isUnread key a.streamOrdering = true)
    (h : SameOn p t.eventPushActions pushed) : SameOn p (t.deleteRead r).eventPushActions pushed := by
  refine h.filter_left fun a _ ha => ?_
  obtain ⟨rfl, hunread⟩ := hp a ha
  rw [Bool.not_eq_true', ← Bool.not_eq_true]
  intro hdeleted
  simp only [Bool.and_eq_true, decide_eq_true_eq] at hdeleted
  obtain ⟨⟨⟨⟨hroom, huser⟩, hle⟩, _⟩, hthread⟩ := hdeleted
  have hcovers : r.covers a.key = true := by
    unfold NewReceipt.covers
    rw [show a.key.userId = r.userId from huser, show a.key.roomId = r.roomId from hroom]
    simp only [decide_true, Bool.true_and]
    cases hr' : r.threadId with
    | none => rfl
    | some threadId =>
      rw [hr'] at hthread
      exact coversThread_iff.mpr (.inr (congrArg some (of_decide_eq_true hthread).symm))
  have := isUnread_iff.mp hunread _ (hr hcovers)
  omega

include h in
/-- While a receipt is not handled, the push actions after the latest one are all there. -/
theorem KeyInv.countBetween_eq (hunhandled : t.Unhandled key)
    {s : Summary} (hdate : t.IsUpToDate key s) {last : ℤ}
    (hlast : s.lastReceiptStreamOrdering = some last) (kind : CountKind) :
    t.countBetween key last t.rotatedUpto kind =
      pushed.countP fun a => t.unread key kind a && decide (a.streamOrdering ≤ t.rotatedUpto) := by
  have hiff : ∀ so, last < so ↔ t.isUnread key so = true := by
    intro so
    refine ⟨fun hlt => isUnread_iff.mpr fun receipt hmem => ?_, fun hunread => hdate.last_lt hlast hunread⟩
    unfold PushTables.IsUpToDate at hdate
    rw [hlast] at hdate
    exact lt_of_le_of_lt (hdate.2 receipt hmem) hlt
  refine Eq.trans ?_ ((h.complete (.inr hunhandled)).countP fun a ha => ?_)
  · refine countP_congr fun a _ => ?_
    simp only [Bool.and_eq_true, decide_eq_true_eq, hiff]
  · simp only [Bool.and_eq_true] at ha ⊢
    exact ⟨⟨ha.1.1.1, counted_of_flag ha.1.1.2⟩, ha.1.2⟩

include h in
theorem KeyInv.handleNewReceipt (hsound : hasEntityChanged.Sound t)
    (hr : r.covers key = true → r.streamOrdering ∈ t.receiptsFor key ∧ t.Unhandled key) :
    KeyInv (handleNewReceipt hasEntityChanged t.rotatedUpto t r) pushed removed key := by
  obtain ⟨hsame, hactions⟩ := handleNewReceipt_frame hasEntityChanged t.rotatedUpto t r
  have hlookup := lookup_handleNewReceipt hsound r t.rotatedUpto key
  generalize Push.handleNewReceipt hasEntityChanged t.rotatedUpto t r = t' at hsame hactions hlookup ⊢
  have hrec : ∀ so, so ∈ t'.receiptsFor key ↔ so ∈ t.receiptsFor key := fun _ => by
    rw [hsame.receiptsFor]
  have hunread := isUnread_congr hrec
  -- the summary was counted again if the receipt covers the thread, and stayed otherwise
  have hcases : ∀ s', t'.eventPushSummary.lookup key = some s' →
      (r.covers key = true ∧ s'.lastReceiptStreamOrdering = some r.streamOrdering ∧
        ∀ kind, s'.count kind = t.countBetween key r.streamOrdering t.rotatedUpto kind) ∨
      (r.covers key = false ∧ t.eventPushSummary.lookup key = some s') := by
    intro s' hs'
    obtain ⟨s, hs, heq⟩ := Option.map_eq_some_iff.mp (hlookup.symm.trans hs')
    cases hcovers : r.covers key with
    | false =>
      rw [hcovers, if_neg Bool.false_ne_true] at heq
      exact .inr ⟨rfl, heq ▸ hs⟩
    | true =>
      rw [hcovers, if_pos rfl] at heq
      refine .inl ⟨rfl, heq ▸ rfl, fun kind => ?_⟩
      cases kind with
      | notif => exact heq ▸ rfl
      | unread => exact heq ▸ rfl
  have hneeds : t'.NeedsActions key → t.NeedsActions key := by
    intro hneeds
    cases hcovers : r.covers key with
    | true => exact .inr (hr hcovers).2
    | false =>
      refine hneeds.imp (fun hall s hs hdate => ?_) hsame.unhandled_iff.mp
      refine hall s ?_ ((isUpToDate_congr hrec s).mpr hdate)
      rw [hlookup, hcovers, show t.eventPushSummary.lookup key = some s from hs]
      rfl
  exact
    { known := by
        rw [hsame.receiptsLinearized, hsame.eventIn]
        exact h.known
      removed_le := by
        rw [hsame.rotatedUpto]
        exact h.removed_le
      subset := fun a hmem hkey => by
        rw [hactions] at hmem
        exact h.subset a (mem_filter.mp hmem).1 hkey
      kept := fun after hafter => by
        rw [hactions, hunread]
        refine sameOn_deleteRead (fun hcovers => (hr hcovers).1) (fun a ha => ?_) (h.kept after hafter)
        simp only [Bool.and_eq_true, decide_eq_true_eq] at ha
        exact ha.1
      unsummarised := fun hnone => by
        rw [hunread, hsame.rotatedUpto]
        rw [hlookup, Option.map_eq_none_iff] at hnone
        exact h.unsummarised hnone
      lastReceipt := fun s hs last hlast => by
        rcases hcases s hs with ⟨hcovers, hs', _⟩ | ⟨_, hs'⟩
        · obtain rfl := Option.some.inj (hs'.symm.trans hlast)
          exact ⟨_, (hrec _).mpr (hr hcovers).1, le_rfl⟩
        · obtain ⟨so, hso, hle⟩ := h.lastReceipt s hs' last hlast
          exact ⟨so, (hrec so).mpr hso, hle⟩
      counts := fun s hs hdate kind => by
        rw [isUpToDate_congr hrec] at hdate
        unfold PushTables.unread
        rw [hunread, hsame.rotatedUpto]
        rcases hcases s hs with ⟨hcovers, hlast, hcount⟩ | ⟨_, hs'⟩
        · rw [hcount kind]
          exact h.countBetween_eq (hr hcovers).2 hdate hlast kind
        · exact h.counts s hs' hdate kind
      complete := fun hneeds' => by
        rw [hactions, hunread]
        refine sameOn_deleteRead (fun hcovers => (hr hcovers).1) (fun a ha => ?_)
          (h.complete (hneeds hneeds'))
        simp only [Bool.and_eq_true, decide_eq_true_eq] at ha
        exact ⟨ha.1.1, ha.2⟩ }

theorem SameReceipts.trans {t'' : PushTables} (h : SameReceipts t t') (h' : SameReceipts t' t'') :
    SameReceipts t t'' :=
  ⟨h'.events.trans h.events, h'.receiptsLinearized.trans h.receiptsLinearized,
    h'.rotatedUpto.trans h.rotatedUpto, h'.lastReceiptStreamId.trans h.lastReceiptStreamId⟩

theorem KeyInv.foldl_handleNewReceipt : ∀ {rows : List NewReceipt} {t : PushTables},
    KeyInv t pushed removed key → hasEntityChanged.Sound t →
    (∀ r ∈ rows, r.covers key = true → r.streamOrdering ∈ t.receiptsFor key ∧ t.Unhandled key) →
      KeyInv (rows.foldl (Push.handleNewReceipt hasEntityChanged t.rotatedUpto) t) pushed removed key ∧
      SameReceipts t (rows.foldl (Push.handleNewReceipt hasEntityChanged t.rotatedUpto) t)
  | [], _, h, _, _ => ⟨h, rfl, rfl, rfl, rfl⟩
  | r :: rows, t, h, hsound, hrows => by
    obtain ⟨hsame, hactions⟩ := handleNewReceipt_frame hasEntityChanged t.rotatedUpto t r
    have hsound' : hasEntityChanged.Sound (Push.handleNewReceipt hasEntityChanged t.rotatedUpto t r) :=
      fun a hmem => hsound.deleteRead r a (hactions ▸ hmem)
    have hnext := h.handleNewReceipt hsound (hrows r mem_cons_self)
    have hrest := foldl_handleNewReceipt hnext hsound' fun r' hmem hcovers => by
      rw [hsame.receiptsFor, hsame.unhandled_iff]
      exact hrows r' (mem_cons_of_mem _ hmem) hcovers
    rw [hsame.rotatedUpto] at hrest
    exact ⟨hrest.1, hsame.trans hrest.2⟩

variable {currentToken : ℕ}

include h in
theorem KeyInv.of_mem_newReceipts
    (hmem : r ∈ newReceipts config t currentToken) (hcovers : r.covers key = true) :
    r.streamOrdering ∈ t.receiptsFor key ∧ t.Unhandled key := by
  obtain ⟨⟨receipt, row⟩, hitem, hrow⟩ := mem_filterMap.mp hmem
  obtain ⟨hid, hrow⟩ := Option.ite_none_right_eq_some.mp hrow
  obtain ⟨event, hevent, rfl⟩ := Option.map_eq_some_iff.mp hrow
  unfold NewReceipt.covers at hcovers
  simp only [Bool.and_eq_true, decide_eq_true_eq] at hcovers
  obtain ⟨⟨huser, hroom⟩, hthread⟩ := hcovers
  have hlookup := Dict.mem_items.mp hitem
  obtain ⟨htype, hknown⟩ := h.known receipt row hlookup huser.symm hroom.symm
  obtain ⟨so, hso⟩ := Option.isSome_iff_exists.mp hknown
  obtain rfl := Option.some.inj ((eventIn_eq_some hso).symm.trans hevent)
  exact ⟨mem_receiptsFor_iff.mpr ⟨receipt, row, hlookup, huser.symm, hroom.symm, htype, hthread, hso⟩,
    (receipt, row), hitem, huser.symm, hroom.symm, hthread, hid.1⟩

theorem lt_streamId_of_mem_newReceipts (hmem : r ∈ newReceipts config t currentToken) :
    t.lastReceiptStreamId < r.streamId := by
  obtain ⟨row, _, hrow⟩ := mem_filterMap.mp hmem
  obtain ⟨hid, hrow⟩ := Option.ite_none_right_eq_some.mp hrow
  obtain ⟨_, _, rfl⟩ := Option.map_eq_some_iff.mp hrow
  exact hid.1

include h in
theorem KeyInv.handleNewReceipts
    (hsound : hasEntityChanged.Sound t) (htoken : t.lastReceiptStreamId ≤ currentToken) :
    KeyInv (handleNewReceiptsForNotifsTxn config hasEntityChanged currentToken t).1 pushed removed
      key := by
  set rows := ((newReceipts config t currentToken).insertionSort fun row row' =>
    row.streamId ≤ row'.streamId).take 100 with hrows
  have hmem : ∀ r ∈ rows, r ∈ newReceipts config t currentToken := fun r hr =>
    (mem_insertionSort _).mp (mem_of_mem_take hr)
  obtain ⟨hfold, hsame⟩ := h.foldl_handleNewReceipt hsound fun r hr =>
    h.of_mem_newReceipts (hmem r (mem_filter.mp hr).1)
  -- the position does not go back, so that nothing that was handled becomes new
  have hle : t.lastReceiptStreamId ≤
      if 100 ≤ rows.length then (rows.getLast?.map NewReceipt.streamId).getD currentToken
      else currentToken := by
    split
    · cases hlast : rows.getLast? with
      | none => exact htoken
      | some r => exact (lt_streamId_of_mem_newReceipts (hmem r (mem_of_getLast? hlast))).le
    · exact htoken
  refine hfold.of_same hfold.known (fun _ => Iff.rfl) (append_nil _).symm (append_nil _).symm
    (nofun) rfl rfl ?_
  intro hunhandled
  obtain ⟨row, hitem, huser, hroom, hthread, hlt⟩ := hunhandled
  refine ⟨row, hitem, huser, hroom, hthread, ?_⟩
  rw [hsame.lastReceiptStreamId]
  exact lt_of_le_of_lt hle hlt

end
end Synapse.Push
