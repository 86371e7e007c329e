import Synapse.Push.Tables

/-!
# The latest receipt of a user

`get_receipts_for_user_with_orderings` of `synapse/storage/databases/main/receipts.py` looks for the latest
receipt in each room: type by type, and the newest of what it gets.  But for one type it puts the rows into
a dictionary by room, and the last row wins.  Since receipts have threads there may be several rows, and
which one is the last is up to the database.  `findsLatest_iff` says for which tables this does no harm.
-/

namespace Synapse.Storage

open Synapse.Util Dict Synapse.Push List

/-- The columns of `events` that are read here. -/
structure EventOrderings where
  roomId : String
  topologicalOrdering : ℤ
  streamOrdering : ℤ

/-- What the answer has for a room. -/
structure UserReceipt where
  eventId : String
  topologicalOrdering : ℤ
  streamOrdering : ℤ
deriving DecidableEq

structure ReceiptTables where
  /-- `events`, by `event_id`. -/
  events : Dict String EventOrderings
  /-- The `event_id` of the rows of `receipts_linearized`. -/
  receiptsLinearized : Dict ReceiptKey String

/-- `if room_id not in results or results[room_id] < room_result`. -/
def newer : Option UserReceipt → UserReceipt → UserReceipt
  | some result, receipt => if result.streamOrdering < receipt.streamOrdering then receipt else result
  | none, receipt => receipt

namespace ReceiptTables
variable (t : ReceiptTables) (userId : String)

/-- `receipts_linearized INNER JOIN events USING (room_id, event_id)`, for one type. -/
def receiptRows (receiptType : String) : List (String × UserReceipt) :=
  t.receiptsLinearized.items.filterMap fun row =>
    match t.events.lookup row.2 with
    | some event =>
      if event.roomId = row.1.roomId ∧ row.1.userId = userId ∧ row.1.receiptType = receiptType then
        some (row.1.roomId, ⟨row.2, event.topologicalOrdering, event.streamOrdering⟩)
      else none
    | none => none

variable (order : RowOrder (String × UserReceipt))

/-- `_get_receipts_for_user_with_orderings`. -/
def getReceiptsOfType (receiptType : String) : Dict String UserReceipt :=
  update ∅ (order.order (t.receiptRows userId receiptType))

/-- `get_receipts_for_user_with_orderings`. -/
def getReceiptsForUserWithOrderings (receiptTypes : List String) : Dict String UserReceipt :=
  receiptTypes.foldl (fun results receiptType =>
    results.upsertAll (t.getReceiptsOfType userId order receiptType).items newer) ∅

/-- The user's receipts in a room that have the type and a known event. -/
def receiptsIn (roomId receiptType : String) : List UserReceipt :=
  ((t.receiptRows userId receiptType).filter (·.1 = roomId)).map Prod.snd

/-- In each room the receipt with the greatest stream ordering is found, whatever the order of the rows. -/
def FindsLatest (receiptTypes : List String) : Prop :=
  ∀ order roomId, IsGreatest UserReceipt.streamOrdering (receiptTypes.flatMap (t.receiptsIn userId roomId))
    ((t.getReceiptsForUserWithOrderings userId order receiptTypes).lookup roomId)

variable {t userId order} {roomId receiptType : String} {receipt : UserReceipt}

theorem mem_receiptsIn :
    receipt ∈ t.receiptsIn userId roomId receiptType ↔
      (roomId, receipt) ∈ t.receiptRows userId receiptType := by
  simp [receiptsIn]

/-! ## One type -/

theorem mem_receiptsIn_of_lookup
    (h : (t.getReceiptsOfType userId order receiptType).lookup roomId = some receipt) :
    receipt ∈ t.receiptsIn userId roomId receiptType := by
  rcases mem_or_lookup_of_lookup_update h with h | h
  · exact mem_receiptsIn.mpr ((order.perm _).mem_iff.mp h)
  · exact nomatch h

/-- The order in which the rows with the property come last. -/
def rowsLast (p : String × UserReceipt → Bool) : RowOrder (String × UserReceipt) where
  order rows := rows.filter (!p ·) ++ rows.filter p
  perm rows := perm_append_comm.trans (filter_append_perm p rows)

section
variable (h : receipt ∈ t.receiptsIn userId roomId receiptType)
include h

variable (order) in
theorem exists_lookup_of_mem :
    ∃ receipt', (t.getReceiptsOfType userId order receiptType).lookup roomId = some receipt' := by
  refine exists_lookup (mem_update.mpr (.inl (mem_map.mpr ⟨(roomId, receipt), ?_, rfl⟩)))
  exact (order.perm _).mem_iff.mpr (mem_receiptsIn.mp h)

/-- A row that comes last is found. -/
theorem lookup_rowsLast {p : String × UserReceipt → Bool} (hp : p (roomId, receipt) = true) :
    ∃ receipt', (t.getReceiptsOfType userId (rowsLast p) receiptType).lookup roomId = some receipt' ∧
      p (roomId, receipt') = true := by
  have hmem := mem_filter.mpr ⟨mem_receiptsIn.mp h, hp⟩
  obtain ⟨receipt', hlast⟩ : ∃ receipt', (update ∅ ((t.receiptRows userId receiptType).filter p)).lookup
      roomId = some receipt' :=
    exists_lookup (mem_update.mpr (.inl (mem_map.mpr ⟨_, hmem, rfl⟩)))
  refine ⟨receipt', ?_, ?_⟩
  · unfold getReceiptsOfType rowsLast
    rw [update_append, lookup_update_eq_or, hlast, Option.some_or]
  · rcases mem_or_lookup_of_lookup_update hlast with hmem | hnone
    · exact (mem_filter.mp hmem).2
    · exact nomatch hnone

end

/-! ## All types -/

theorem isGreatest_newer {found : List UserReceipt} {result : Option UserReceipt}
    (h : IsGreatest UserReceipt.streamOrdering found result) (receipt : UserReceipt) :
    IsGreatest UserReceipt.streamOrdering (found ++ [receipt]) (some (newer result receipt)) := by
  cases result with
  | none =>
    obtain rfl : found = [] := h
    exact ⟨mem_singleton_self _, fun r hr => (congrArg _ (mem_singleton.mp hr)).le⟩
  | some result =>
    obtain ⟨hmem, hle⟩ := h
    by_cases hlt : result.streamOrdering < receipt.streamOrdering
    · rw [newer, if_pos hlt]
      exact ⟨mem_append_right _ (mem_singleton_self _), forall_mem_append.mpr
        ⟨fun r hr => (hle r hr).trans hlt.le, forall_mem_singleton.mpr le_rfl⟩⟩
    · rw [newer, if_neg hlt]
      exact ⟨mem_append_left _ hmem,
        forall_mem_append.mpr ⟨hle, forall_mem_singleton.mpr (not_lt.mp hlt)⟩⟩

variable (t userId order roomId) in
/-- The answer for a room is the greatest of what is found for the types. -/
theorem isGreatest_found (receiptTypes : List String) : IsGreatest UserReceipt.streamOrdering
    (receiptTypes.filterMap fun receiptType => (t.getReceiptsOfType userId order receiptType).lookup roomId)
    ((t.getReceiptsForUserWithOrderings userId order receiptTypes).lookup roomId) := by
  induction receiptTypes using List.reverseRecOn with
  | nil => rfl
  | append_singleton receiptTypes receiptType ih =>
    unfold getReceiptsForUserWithOrderings at ih ⊢
    rw [foldl_append, filterMap_append]
    generalize receiptTypes.foldl _ _ = results at ih ⊢
    have hkeys := map_fst_items (t.getReceiptsOfType userId order receiptType)
    simp only [foldl_cons, foldl_nil, filterMap_cons, filterMap_nil]
    cases hfound : (t.getReceiptsOfType userId order receiptType).lookup roomId with
    | none =>
      have hnotin := AList.lookup_eq_none.mp hfound
      rw [AList.mem_keys, ← hkeys] at hnotin
      rw [lookup_upsertAll_of_notMem hnotin, append_nil]
      exact ih
    | some receipt =>
      rw [lookup_upsertAll_of_mem (hkeys ▸ AList.keys_nodup _) (mem_items.mpr hfound)]
      exact isGreatest_newer ih receipt

/-- **The latest receipt is found** exactly if in each room with receipts there is a type of which all
receipts are the latest. -/
theorem findsLatest_iff (receiptTypes : List String) : t.FindsLatest userId receiptTypes ↔
    ∀ roomId, receiptTypes.flatMap (t.receiptsIn userId roomId) ≠ [] →
      ∃ receiptType ∈ receiptTypes, t.receiptsIn userId roomId receiptType ≠ [] ∧
        ∀ receipt ∈ t.receiptsIn userId roomId receiptType,
          ∀ other ∈ receiptTypes.flatMap (t.receiptsIn userId roomId),
            other.streamOrdering ≤ receipt.streamOrdering := by
  constructor
  · intro h roomId hne
    -- the rows that are not the latest come last
    let p : String × UserReceipt → Bool := fun row =>
      (receiptTypes.flatMap (t.receiptsIn userId roomId)).any (row.2.streamOrdering < ·.streamOrdering)
    have hgreatest := h (rowsLast p) roomId
    have hfound := isGreatest_found t userId (rowsLast p) roomId receiptTypes
    cases hresult : (t.getReceiptsForUserWithOrderings userId (rowsLast p) receiptTypes).lookup roomId with
    | none =>
      rw [hresult] at hgreatest
      exact absurd hgreatest hne
    | some result =>
      rw [hresult] at hgreatest hfound
      obtain ⟨receiptType, htype, hlookup⟩ := mem_filterMap.mp hfound.1
      refine ⟨receiptType, htype, ne_nil_of_mem (mem_receiptsIn_of_lookup hlookup), ?_⟩
      intro receipt hreceipt other hother
      by_contra hlt
      have hp : p (roomId, receipt) = true :=
        any_eq_true.mpr ⟨other, hother, decide_eq_true (not_le.mp hlt)⟩
      obtain ⟨receipt', hlookup', hp'⟩ := lookup_rowsLast hreceipt hp
      obtain rfl := Option.some.inj (hlookup.symm.trans hlookup')
      obtain ⟨other, hother, hlt⟩ := any_eq_true.mp hp'
      exact not_le.mpr (of_decide_eq_true hlt) (hgreatest.2 other hother)
  · intro h order roomId
    have hfound := isGreatest_found t userId order roomId receiptTypes
    cases hresult : (t.getReceiptsForUserWithOrderings userId order receiptTypes).lookup roomId with
    | none =>
      rw [hresult] at hfound
      by_contra hne
      obtain ⟨receiptType, htype, hin, _⟩ := h roomId hne
      obtain ⟨receipt, hreceipt⟩ := exists_mem_of_ne_nil _ hin
      obtain ⟨receipt', hlookup⟩ := exists_lookup_of_mem order hreceipt
      exact absurd (mem_filterMap.mpr ⟨receiptType, htype, hlookup⟩) (hfound ▸ not_mem_nil)
    | some result =>
      rw [hresult] at hfound
      obtain ⟨receiptType, htype, hlookup⟩ := mem_filterMap.mp hfound.1
      have hmem := mem_flatMap.mpr ⟨receiptType, htype, mem_receiptsIn_of_lookup hlookup⟩
      refine ⟨hmem, fun other hother => ?_⟩
      obtain ⟨latestType, hlatestType, hin, hlatest⟩ := h roomId (ne_nil_of_mem hmem)
      obtain ⟨receipt, hreceipt⟩ := exists_mem_of_ne_nil _ hin
      obtain ⟨latest, hlookup'⟩ := exists_lookup_of_mem order hreceipt
      have hle := hlatest latest (mem_receiptsIn_of_lookup hlookup') other hother
      exact hle.trans (hfound.2 latest (mem_filterMap.mpr ⟨latestType, hlatestType, hlookup'⟩))

/-- Alice has read a room up to the second event, and a thread in it up to the first. -/
def threadedReceipt : ReceiptTables where
  events := update ∅ [("$1", ⟨"!room", 1, 1⟩), ("$2", ⟨"!room", 2, 2⟩)]
  receiptsLinearized := update ∅ [(⟨"!room", "m.read", "@alice", none⟩, "$2"),
    (⟨"!room", "m.read", "@alice", some "$1"⟩, "$1")]

/-- If the row of the thread comes last, the older receipt is returned. -/
theorem not_findsLatest_threadedReceipt : ¬threadedReceipt.FindsLatest "@alice" ["m.read"] := by
  intro h
  have hgreatest := (h (rowsLast fun row => row.2.eventId = "$1") "!room").2 ⟨"$2", 2, 2⟩ (by decide)
  exact absurd hgreatest (by decide)

end ReceiptTables
end Synapse.Storage
