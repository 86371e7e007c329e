import Synapse.Util.HeapMerge
import Synapse.Util.Paging
import Synapse.Util.PyValue
import Synapse.Util.Select

/-!
# The account data and the device lists streams

Both streams put several sources together that count in the same stream IDs.  Every source is read with
the limit of the page.  If it is reached, the page can go no further than the last row that was read, and
what the other sources have beyond it must be left for the next page.

`AccountDataStream._update_function` reads its sources one after the other, each one only up to the token
that the ones before it have left, and drops at the end what is above the last token.
`DeviceListsStream._update_function` reads both of its sources up to the same token and takes the least of
what they have reached.

A source of which the limit cuts off only rows above the token of the page is complete up to that token
(`filter_updatedRows_perm`).  That is so if its rows have different stream IDs (`UptoSpec.lt_of_nodup`), so
reading page by page gives all account data.  The changes of devices are from two tables, and if both have
a row with the same stream ID, the limit may fall between the two.  Then the page ends with the one, the
next page goes on behind the other, and it is never read.  Reading page by page gives all changes exactly
if this happens on no page (`readsAll_merged`).
-/

namespace Synapse.Replication

open Synapse.Util List
open Prod (fst)

/-! ## A source with a limit -/

section
variable {α : Type} {token : α → ℤ} {rows : List α} {lastId currentId upto : ℤ} {limit : ℕ}

variable (token rows lastId currentId)

/-- `SELECT … WHERE ? < stream_id AND stream_id <= ? ORDER BY stream_id ASC LIMIT ?`, which is not asked
for if there can be nothing. -/
def updatedRows (limit : ℕ) : List α :=
  if lastId = currentId then []
  else (orderBy token (between token rows lastId currentId)).take limit

/-- How far the rows go, and whether the limit has been reached. -/
def uptoToken (limit : ℕ) : Except PyError (ℤ × Bool) :=
  if rows.length ≥ limit then
    match rows.getLast? with
    | none => .error .indexError
    | some last => .ok (token last, true)
  else .ok (currentId, false)

/-- The rows of a source, how far they go, and whether the limit has been reached. -/
def limitedRows (limit : ℕ) : Except PyError (List α × ℤ × Bool) :=
  if lastId = currentId then .ok ([], currentId, false)
  else do
    let updates := updatedRows token rows lastId currentId limit
    let (upto, limited) ← uptoToken token updates currentId limit
    pure (updates, upto, limited)

/-- Nothing is between a position and itself. -/
theorem updatedRows_eq (limit : ℕ) : updatedRows token rows lastId currentId limit =
      (orderBy token (between token rows lastId currentId)).take limit := by
  unfold updatedRows
  split
  next heq =>
    rw [heq, between_self]
    exact take_nil.symm
  · rfl

/-- What the token of a source says: the limit cuts off nothing below it. -/
structure UptoSpec (limit : ℕ) (upto : ℤ) (limited : Bool) : Prop where
  le : upto ≤ currentId
  last : limited = false →
    upto = currentId ∧ (orderBy token (between token rows lastId currentId)).length < limit
  more : limited = true → lastId < upto ∧
    ∃ row, (orderBy token (between token rows lastId currentId))[limit - 1]? = some row ∧ token row = upto

/-- The token of a source, whose limit is at least 1. -/
theorem uptoToken_spec (hlimit : 1 ≤ limit) : ∃ upto limited,
      uptoToken token (updatedRows token rows lastId currentId limit) currentId limit =
        .ok (upto, limited) ∧
      UptoSpec token rows lastId currentId limit upto limited := by
  rw [updatedRows_eq]
  unfold uptoToken
  split
  next hlength =>
    -- `n + 1` is the limit, and the last row is the one at `n`
    obtain ⟨n, rfl⟩ : ∃ n, limit = n + 1 := ⟨limit - 1, by omega⟩
    rw [length_take] at hlength
    have hn : n < (orderBy token (between token rows lastId currentId)).length := by omega
    rw [take_succ_eq_append_getElem hn, getLast?_concat]
    obtain ⟨_, hlow, hhigh⟩ := mem_between.mp (mem_orderBy.mp (getElem_mem hn))
    refine ⟨_, _, rfl, hhigh, fun h => (by cases h), fun _ => ⟨hlow, _, ?_, rfl⟩⟩
    exact getElem?_eq_getElem hn
  next hlength =>
    rw [length_take] at hlength
    exact ⟨_, _, rfl, le_rfl, fun _ => ⟨rfl, by omega⟩, fun h => by cases h⟩

theorem limitedRows_spec (hlimit : 1 ≤ limit) : ∃ upto limited,
      limitedRows token rows lastId currentId limit =
        .ok (updatedRows token rows lastId currentId limit, upto, limited) ∧
      UptoSpec token rows lastId currentId limit upto limited := by
  unfold limitedRows
  split
  next heq =>
    have hnone : updatedRows token rows lastId currentId limit = [] := if_pos heq
    rw [hnone]
    refine ⟨_, _, rfl, le_rfl, fun _ => ⟨rfl, ?_⟩, fun h => by cases h⟩
    rw [heq, between_self]
    exact hlimit
  · obtain ⟨upto, limited, hupto, hspec⟩ := uptoToken_spec token rows lastId currentId hlimit
    dsimp only [bind, Except.bind]
    rw [hupto]
    exact ⟨_, _, rfl, hspec⟩

variable {token rows lastId currentId}

variable {limited : Bool} (h : UptoSpec token rows lastId currentId limit upto limited)
include h in
/-- The token is above the position if the limit has been reached, or if there was anywhere to go. -/
theorem UptoSpec.lt (hlt : limited = true ∨ lastId < currentId) : lastId < upto := by
  cases hlimited : limited with
  | false => exact (h.last hlimited).1 ▸ hlt.resolve_left (hlimited ▸ Bool.false_ne_true)
  | true => exact (h.more hlimited).1

include h in
/-- Rows with different stream IDs that are cut off are above the token. -/
theorem UptoSpec.lt_of_nodup (hlimit : 1 ≤ limit) (hnodup : (rows.map token).Nodup) {row : α}
    (hrow : row ∈ (orderBy token (between token rows lastId currentId)).drop limit) :
    upto < token row := by
  cases hlimited : limited with
  | false =>
    rw [drop_eq_nil_of_le (h.last hlimited).2.le] at hrow
    exact nomatch hrow
  | true =>
    obtain ⟨_, last, hlast, rfl⟩ := h.more hlimited
    have hsorted : (orderBy token (between token rows lastId currentId)).Pairwise
        fun row row' => token row < token row' :=
      pairwise_lt_orderBy (hnodup.sublist (filter_sublist.map _))
    have htake : last ∈ (orderBy token (between token rows lastId currentId)).take limit :=
      mem_iff_getElem?.mpr ⟨limit - 1, by rw [getElem?_take_of_lt (by omega), hlast]⟩
    rw [← take_append_drop limit (orderBy _ _)] at hsorted
    exact (pairwise_append.mp hsorted).2.2 _ htake row hrow

/-- **A source is complete up to a token** that is below all rows that the limit cuts off. -/
theorem filter_updatedRows_perm (hle : upto ≤ currentId)
    (hcut : ∀ row ∈ (orderBy token (between token rows lastId currentId)).drop limit, upto < token row) :
    ((updatedRows token rows lastId currentId limit).filter fun row => token row ≤ upto).Perm
      (between token rows lastId upto) := by
  rw [updatedRows_eq, filter_take_of_drop fun row hrow => decide_eq_false (not_le.mpr (hcut row hrow)),
    ← filter_between_le token rows hle]
  exact (orderBy_perm _).filter _

theorem mem_of_mem_updatedRows {row : α} (h : row ∈ updatedRows token rows lastId currentId limit) :
    row ∈ between token rows lastId currentId := by
  rw [updatedRows_eq] at h
  exact mem_orderBy.mp (mem_of_mem_take h)

/-- Only a source of which the limit cuts off nothing up to a token is complete up to it. -/
theorem lt_of_length_filter_updatedRows (hle : upto ≤ currentId)
    (hlength : ((updatedRows token rows lastId currentId limit).filter
      fun row => token row ≤ upto).length = (between token rows lastId upto).length) :
    ∀ row ∈ (orderBy token (between token rows lastId currentId)).drop limit, upto < token row := by
  have hall : ((orderBy token (between token rows lastId currentId)).filter
      fun row => token row ≤ upto).length = (between token rows lastId upto).length := by
    rw [← filter_between_le token rows hle]
    exact ((orderBy_perm _).filter _).length_eq
  rw [updatedRows_eq] at hlength
  rw [← take_append_drop limit (orderBy token (between token rows lastId currentId)),
    filter_append, length_append] at hall
  intro row hrow
  by_contra hge
  have hmem : row ∈ ((orderBy token (between token rows lastId currentId)).drop limit).filter
      fun row => token row ≤ upto := mem_filter.mpr ⟨hrow, decide_eq_true (not_lt.mp hge)⟩
  have := length_pos_of_mem hmem
  omega

/-- What a source gives to the merge is sorted. -/
theorem pairwise_map_updatedRows {ρ : Type} (token : α → ℤ) (rows : List α) (update : α → ℤ × ρ)
    (lastId currentId upto : ℤ) (limit : ℕ) (hupdate : ∀ row, (update row).1 = token row) :
    (((updatedRows token rows lastId currentId limit).filter fun row => token row ≤ upto).map
      update).Pairwise fun u u' => u.1 ≤ u'.1 := by
  simp only [pairwise_map, hupdate]
  rw [updatedRows_eq]
  exact ((pairwise_le_orderBy _).sublist (take_sublist _ _)).sublist filter_sublist

end

/-! ## The merge -/

section
variable {ρ : Type}

/-- `heapq.merge(…, key=lambda row: row[0])`. -/
def mergeByToken (sources : List (List (ℤ × ρ))) : Except PyError (List (ℤ × ρ)) :=
  heapMerge (fun u u' => .ok (decide (u.1 < u'.1))) sources

/-- The merge of sorted sources is sorted and has the rows of all of them. -/
theorem mergeByToken_spec {sources : List (List (ℤ × ρ))}
    (hsorted : ∀ source ∈ sources, Ascending Prod.fst source) :
    ∃ updates, mergeByToken sources = .ok updates ∧ updates.Perm sources.flatten ∧
      Ascending Prod.fst updates := by
  refine heapMerge_spec ⟨fun h => ?_, fun h => ?_⟩ ?_ hsorted
  · exact (of_decide_eq_true (Except.ok.inj h)).le
  · exact not_lt.mp (of_decide_eq_false (Except.ok.inj h))
  · exact pairwise_of_forall fun _ _ _ _ _ _ => ⟨_, rfl⟩

end

/-! ## Complete pages -/

/-- What a page of a stream has: all rows of its part, sorted. -/
structure CompletePage {ρ : Type} (rows : List (ℤ × ρ)) (fromToken toToken : ℤ)
    (page : Page (ℤ × ρ)) : Prop where
  perm : page.updates.Perm (between fst rows fromToken page.token)
  sorted : Ascending Prod.fst page.updates
  last : page.limited = false → page.token = toToken
  more : page.limited = true → fromToken < page.token ∧ page.token ≤ toToken

/-- If every page is complete, reading page by page gives all rows. -/
theorem readsAll_of_completePage {ρ : Type} [DecidableEq ρ] {rows : List (ℤ × ρ)}
    {update : ℤ → Option (Page (ℤ × ρ))} {fromToken toToken : ℤ} (hle : fromToken ≤ toToken)
    (hpage : ∀ position, ∃ page, update position = some page ∧ CompletePage rows position toToken page) :
    ReadsAll (fun u u' => u.1 ≤ u'.1) fst rows update fromToken toToken := by
  refine (readsAll_iff_visited (fun _ _ hlt => hlt.le) hle fun position => ?_).mpr fun _ _ => trivial
  obtain ⟨page, hpage, hcomplete⟩ := hpage position
  refine ⟨page, hpage, ⟨hcomplete.sorted, fun u hu => ?_, hcomplete.last, hcomplete.more⟩,
    iff_of_true hcomplete.perm trivial⟩
  exact (mem_between.mp (hcomplete.perm.subset hu)).2

/-! ## Account data -/

/-- What the stream reads of a row of `account_data`. -/
structure AccountDataRow where
  streamId : ℤ
  userId : String
  accountDataType : String

/-- What the stream reads of a row of `room_account_data`. -/
structure RoomAccountDataRow where
  streamId : ℤ
  userId : String
  roomId : String
  accountDataType : String

/-- A row of `room_tags_revisions`. -/
structure RoomTagsRevisionsRow where
  streamId : ℤ
  userId : String
  roomId : String

/-- `(stream_id, (user_id, room_id, data_type))`. -/
abbrev AccountDataUpdate := ℤ × String × Option String × String

/-- `AccountDataTypes.TAG`. -/
def accountDataTypeTag : String := "m.tag"

def AccountDataRow.update (row : AccountDataRow) : AccountDataUpdate :=
  (row.streamId, row.userId, none, row.accountDataType)

def RoomAccountDataRow.update (row : RoomAccountDataRow) : AccountDataUpdate :=
  (row.streamId, row.userId, some row.roomId, row.accountDataType)

def RoomTagsRevisionsRow.update (row : RoomTagsRevisionsRow) : AccountDataUpdate :=
  (row.streamId, row.userId, some row.roomId, accountDataTypeTag)

/-- The tables of the stream; each has at most one row with a stream ID. -/
structure AccountDataTables where
  accountData : List AccountDataRow
  roomAccountData : List RoomAccountDataRow
  roomTagsRevisions : List RoomTagsRevisionsRow
  nodupAccountData : (accountData.map AccountDataRow.streamId).Nodup
  nodupRoomAccountData : (roomAccountData.map RoomAccountDataRow.streamId).Nodup
  nodupRoomTagsRevisions : (roomTagsRevisions.map RoomTagsRevisionsRow.streamId).Nodup

namespace AccountDataTables

/-- The rows of all tables, as updates. -/
def rows (t : AccountDataTables) : List AccountDataUpdate :=
  t.roomAccountData.map RoomAccountDataRow.update ++ (t.accountData.map AccountDataRow.update ++
    t.roomTagsRevisions.map RoomTagsRevisionsRow.update)

variable (t : AccountDataTables) (lastId currentId : ℤ) (limit : ℕ)

/-- `get_updated_global_account_data`. -/
def getUpdatedGlobalAccountData : List AccountDataRow :=
  updatedRows AccountDataRow.streamId t.accountData lastId currentId limit

/-- `get_updated_room_account_data`. -/
def getUpdatedRoomAccountData : List RoomAccountDataRow :=
  updatedRows RoomAccountDataRow.streamId t.roomAccountData lastId currentId limit

/-- `get_all_updated_tags`. -/
def getAllUpdatedTags : Except PyError (List RoomTagsRevisionsRow × ℤ × Bool) :=
  limitedRows RoomTagsRevisionsRow.streamId t.roomTagsRevisions lastId currentId limit

/-- `updates`: the rows that were read, up to a token, merged. -/
def mergeUpdates (globalResults : List AccountDataRow) (roomResults : List RoomAccountDataRow)
    (tags : List RoomTagsRevisionsRow) (toToken : ℤ) : Except PyError (List AccountDataUpdate) :=
  mergeByToken [(roomResults.filter fun row => row.streamId ≤ toToken).map RoomAccountDataRow.update,
    (globalResults.filter fun row => row.streamId ≤ toToken).map AccountDataRow.update,
    (tags.filter fun row => row.streamId ≤ toToken).map RoomTagsRevisionsRow.update]

/-- `AccountDataStream._update_function`. -/
def updateFunction (t : AccountDataTables) (fromToken toToken : ℤ) (limit : ℕ) :
    Except PyError (Page AccountDataUpdate) := do
  let globalResults := t.getUpdatedGlobalAccountData fromToken toToken limit
  let (toToken, globalLimited) ← uptoToken AccountDataRow.streamId globalResults toToken limit
  let roomResults := t.getUpdatedRoomAccountData fromToken toToken limit
  let (toToken, roomLimited) ← uptoToken RoomAccountDataRow.streamId roomResults toToken limit
  let (tags, toToken, tagsLimited) ← t.getAllUpdatedTags fromToken toToken limit
  let updates ← mergeUpdates globalResults roomResults tags toToken
  pure ⟨updates, toToken, globalLimited || roomLimited || tagsLimited⟩

def page (t : AccountDataTables) (toToken : ℤ) (limit : ℕ) (fromToken : ℤ) :
    Option (Page AccountDataUpdate) := (t.updateFunction fromToken toToken limit).toOption

variable {t : AccountDataTables} {fromToken toToken upto : ℤ} {limit : ℕ} (t : AccountDataTables)

/-- The rows between two positions, table by table. -/
theorem between_rows (fromToken upto : ℤ) : between fst t.rows fromToken upto =
      (between RoomAccountDataRow.streamId t.roomAccountData fromToken upto).map
          RoomAccountDataRow.update ++
        ((between AccountDataRow.streamId t.accountData fromToken upto).map AccountDataRow.update ++
          (between RoomTagsRevisionsRow.streamId t.roomTagsRevisions fromToken upto).map
            RoomTagsRevisionsRow.update) := by
  unfold rows
  rw [between_append, between_append, between_map, between_map, between_map]
  rfl

/-- **Every page of account data is complete.** -/
theorem page_complete (hlimit : 1 ≤ limit) : ∃ page, t.page toToken limit fromToken = some page ∧
      CompletePage t.rows fromToken toToken page := by
  obtain ⟨to₁, globalLimited, hglobal, hspec₁⟩ :=
    uptoToken_spec AccountDataRow.streamId t.accountData fromToken toToken hlimit
  obtain ⟨to₂, roomLimited, hroom, hspec₂⟩ :=
    uptoToken_spec RoomAccountDataRow.streamId t.roomAccountData fromToken to₁ hlimit
  obtain ⟨to₃, tagsLimited, htags, hspec₃⟩ :=
    limitedRows_spec RoomTagsRevisionsRow.streamId t.roomTagsRevisions fromToken to₂ hlimit
  have hle₁ := hspec₁.le
  have hle₂ := hspec₂.le
  have hle₃ := hspec₃.le
  obtain ⟨updates, hmerge, hperm, hsorted⟩ := mergeByToken_spec (forall_mem_cons.mpr
    ⟨pairwise_map_updatedRows RoomAccountDataRow.streamId t.roomAccountData RoomAccountDataRow.update
      fromToken to₁ to₃ limit fun _ => rfl, forall_mem_cons.mpr
    ⟨pairwise_map_updatedRows AccountDataRow.streamId t.accountData AccountDataRow.update
      fromToken toToken to₃ limit fun _ => rfl, forall_mem_singleton.mpr
    (pairwise_map_updatedRows RoomTagsRevisionsRow.streamId t.roomTagsRevisions
      RoomTagsRevisionsRow.update fromToken to₂ to₃ limit fun _ => rfl)⟩⟩)
  refine ⟨⟨updates, to₃, globalLimited || roomLimited || tagsLimited⟩, ?_, ?_, hsorted, ?_, ?_⟩
  · unfold page updateFunction getAllUpdatedTags getUpdatedGlobalAccountData getUpdatedRoomAccountData
    dsimp only [bind, Except.bind]
    rw [hglobal]
    dsimp only
    rw [hroom]
    dsimp only
    rw [htags]
    dsimp only [mergeUpdates]
    rw [hmerge]
    rfl
  · -- each source is complete up to the last token, since that is not above its own
    refine hperm.trans ?_
    rw [flatten_cons, flatten_cons, flatten_singleton, between_rows]
    refine .append ?_ (.append ?_ ?_)
    · refine (filter_updatedRows_perm (by omega) fun row hrow => ?_).map _
      have := hspec₂.lt_of_nodup hlimit t.nodupRoomAccountData hrow
      omega
    · refine (filter_updatedRows_perm (by omega) fun row hrow => ?_).map _
      have := hspec₁.lt_of_nodup hlimit t.nodupAccountData hrow
      omega
    · refine (filter_updatedRows_perm (by omega) fun row hrow => ?_).map _
      exact hspec₃.lt_of_nodup hlimit t.nodupRoomTagsRevisions hrow
  · intro hlast
    obtain ⟨hlast, htags⟩ := Bool.or_eq_false_iff.mp hlast
    obtain ⟨hglobal, hroom⟩ := Bool.or_eq_false_iff.mp hlast
    rw [(hspec₃.last htags).1, (hspec₂.last hroom).1, (hspec₁.last hglobal).1]
  · intro hmore
    rw [Bool.or_eq_true, Bool.or_eq_true] at hmore
    refine ⟨hspec₃.lt (hmore.symm.imp_right fun hmore => hspec₂.lt (hmore.symm.imp_right fun hmore => ?_)),
      show to₃ ≤ toToken by omega⟩
    exact hspec₁.lt (.inl hmore)

end AccountDataTables

/-! ## Device lists -/

/-- What the stream reads of a row of `device_lists_stream`. -/
structure DeviceListsStreamRow where
  streamId : ℤ
  userId : String

/-- What the stream reads of a row of `device_lists_outbound_pokes`. -/
structure DeviceListsOutboundPokesRow where
  streamId : ℤ
  destination : String

/-- What the stream reads of a row of `user_signature_stream`. -/
structure UserSignatureStreamRow where
  streamId : ℤ
  fromUserId : String

/-- `(stream_id, (entity, is_signature))`. -/
abbrev DeviceListsUpdate := ℤ × String × Bool

/-- The tables of the stream; each has at most one row with a stream ID. -/
structure DeviceListsTables where
  deviceListsStream : List DeviceListsStreamRow
  deviceListsOutboundPokes : List DeviceListsOutboundPokesRow
  userSignatureStream : List UserSignatureStreamRow
  nodupDeviceListsStream : (deviceListsStream.map DeviceListsStreamRow.streamId).Nodup
  nodupDeviceListsOutboundPokes :
    (deviceListsOutboundPokes.map DeviceListsOutboundPokesRow.streamId).Nodup
  nodupUserSignatureStream : (userSignatureStream.map UserSignatureStreamRow.streamId).Nodup

namespace DeviceListsTables
variable (t : DeviceListsTables)

/-- `SELECT stream_id, user_id … UNION ALL SELECT stream_id, destination …`. -/
def deviceChanges : List (ℤ × String) :=
  (t.deviceListsStream.map fun row => (row.streamId, row.userId)) ++
    t.deviceListsOutboundPokes.map fun row => (row.streamId, row.destination)

/-- `SELECT stream_id, from_user_id …`. -/
def signatureChanges : List (ℤ × String) :=
  t.userSignatureStream.map fun row => (row.streamId, row.fromUserId)

def deviceUpdate (change : ℤ × String) : DeviceListsUpdate := (change.1, change.2, false)

def signatureUpdate (change : ℤ × String) : DeviceListsUpdate := (change.1, change.2, true)

/-- The rows of all tables, as updates. -/
def rows : List DeviceListsUpdate :=
  t.deviceChanges.map deviceUpdate ++ t.signatureChanges.map signatureUpdate

/-- `get_all_device_list_changes_for_remotes`; `order` is the order in which the database has rows that
the query does not sort. -/
def getAllDeviceListChangesForRemotes (order : RowOrder (ℤ × String)) (lastId currentId : ℤ)
    (limit : ℕ) : Except PyError (List (ℤ × String) × ℤ × Bool) :=
  limitedRows fst (order.order t.deviceChanges) lastId currentId limit

/-- `get_all_user_signature_changes_for_remotes`. -/
def getAllUserSignatureChangesForRemotes (lastId currentId : ℤ) (limit : ℕ) :
    Except PyError (List (ℤ × String) × ℤ × Bool) :=
  limitedRows fst t.signatureChanges lastId currentId limit

/-- `updates`: the rows that were read, up to a token, merged. -/
def mergeUpdates (deviceUpdates signaturesUpdates : List (ℤ × String)) (upperLimitToken : ℤ) :
    Except PyError (List DeviceListsUpdate) :=
  mergeByToken [(deviceUpdates.filter fun change => change.1 ≤ upperLimitToken).map deviceUpdate,
    (signaturesUpdates.filter fun change => change.1 ≤ upperLimitToken).map signatureUpdate]

/-- `DeviceListsStream._update_function`. -/
def updateFunction (order : RowOrder (ℤ × String)) (fromToken currentToken : ℤ) (targetRowCount : ℕ) :
    Except PyError (Page DeviceListsUpdate) := do
  let (deviceUpdates, devicesToToken, devicesLimited) ←
    t.getAllDeviceListChangesForRemotes order fromToken currentToken targetRowCount
  let (signaturesUpdates, signaturesToToken, signaturesLimited) ←
    t.getAllUserSignatureChangesForRemotes fromToken currentToken targetRowCount
  let upperLimitToken := currentToken
  let upperLimitToken := if devicesLimited then min upperLimitToken devicesToToken else upperLimitToken
  let upperLimitToken :=
    if signaturesLimited then min upperLimitToken signaturesToToken else upperLimitToken
  let updates ← mergeUpdates deviceUpdates signaturesUpdates upperLimitToken
  pure ⟨updates, upperLimitToken, devicesLimited || signaturesLimited⟩

def page (order : ℤ → RowOrder (ℤ × String)) (currentToken : ℤ) (targetRowCount : ℕ) (fromToken : ℤ) :
    Option (Page DeviceListsUpdate) :=
  (t.updateFunction (order fromToken) fromToken currentToken targetRowCount).toOption

variable (fromToken currentToken : ℤ)

/-- The stream IDs of the changes of devices between two positions. -/
def deviceIds : List ℤ := orderBy id (between id (t.deviceChanges.map fst) fromToken currentToken)

/-- The stream IDs of the signatures between two positions. -/
def signatureIds : List ℤ :=
  orderBy id (between id (t.signatureChanges.map fst) fromToken currentToken)

/-- The limit falls between two changes of devices that have the same stream ID, and the signatures do
not stop the page before it. -/
def Splits (limit : ℕ) : Prop :=
  ∃ streamId, (t.deviceIds fromToken currentToken)[limit - 1]? = some streamId ∧
    (t.deviceIds fromToken currentToken)[limit]? = some streamId ∧
    ∀ streamId', (t.signatureIds fromToken currentToken)[limit - 1]? = some streamId' →
      streamId ≤ streamId'

variable {t : DeviceListsTables} {order : RowOrder (ℤ × String)} {fromToken currentToken upper : ℤ}
  {limit : ℕ}

/-- The stream IDs of sorted changes do not depend on the order of changes with the same one. -/
theorem map_fst_orderBy {changes changes' : List (ℤ × String)} (hperm : changes.Perm changes') :
    (orderBy fst (between fst changes fromToken currentToken)).map fst =
      orderBy id (between id (changes'.map fst) fromToken currentToken) := by
  have hids : between id (changes'.map fst) fromToken currentToken =
      (between fst changes' fromToken currentToken).map fst :=
    between_map fst changes'
  rw [hids]
  refine Perm.eq_of_pairwise (fun _ _ _ _ => le_antisymm) ?_ (pairwise_le_orderBy _) ?_
  · exact pairwise_map.mpr (pairwise_le_orderBy _)
  · refine (((orderBy_perm _).trans (between_perm hperm)).map _).trans ?_
    exact (orderBy_perm _).symm

/-- The limit cuts off no change up to the token of the page, exactly if it does not fall between two
with the same stream ID. -/
theorem lt_of_mem_drop_iff {devicesTo signaturesTo : ℤ} {devicesLimited signaturesLimited : Bool}
    (hlimit : 1 ≤ limit)
    (hdevices : UptoSpec fst (order.order t.deviceChanges) fromToken currentToken limit devicesTo
      devicesLimited)
    (hsignatures : UptoSpec fst t.signatureChanges fromToken currentToken limit signaturesTo
      signaturesLimited) :
    (∀ change ∈ (orderBy fst (between fst (order.order t.deviceChanges) fromToken
        currentToken)).drop limit, min devicesTo signaturesTo < change.1) ↔
      ¬t.Splits fromToken currentToken limit := by
  unfold Splits deviceIds signatureIds
  rw [← map_fst_orderBy (order.perm t.deviceChanges), ← map_fst_orderBy (List.Perm.refl _)]
  have hsorted : (orderBy fst (between fst (order.order t.deviceChanges) fromToken
      currentToken)).Pairwise fun change change' => change.1 ≤ change'.1 := pairwise_le_orderBy _
  constructor
  · intro hcut hsplits
    obtain ⟨streamId, hlast, hnext, hsignature⟩ := hsplits
    rw [getElem?_map] at hlast hnext
    obtain ⟨change, hchange, rfl⟩ := Option.map_eq_some_iff.mp hlast
    obtain ⟨change', hchange', heq⟩ := Option.map_eq_some_iff.mp hnext
    have hlt := hcut change' (mem_iff_getElem?.mpr ⟨0, by rw [getElem?_drop]; exact hchange'⟩)
    have hhigh := (mem_between.mp (mem_orderBy.mp (mem_of_getElem? hchange))).2.2
    -- neither source ends before the two changes
    have hdevicesTo : devicesTo = change.1 := by
      cases hlimited : devicesLimited with
      | false =>
        have := (List.getElem?_eq_some_iff.mp hchange').1
        have := (hdevices.last hlimited).2
        omega
      | true =>
        obtain ⟨_, row, hrow, rfl⟩ := hdevices.more hlimited
        rw [Option.some.inj (hrow.symm.trans hchange)]
    have hsignaturesTo : change.1 ≤ signaturesTo := by
      cases hlimited : signaturesLimited with
      | false => exact (hsignatures.last hlimited).1 ▸ hhigh
      | true =>
        obtain ⟨_, row, hrow, rfl⟩ := hsignatures.more hlimited
        apply hsignature
        rw [getElem?_map, hrow]
        rfl
    omega
  · intro hsplits change hmem
    by_contra hle
    apply hsplits
    have hlength : limit < (orderBy fst (between fst (order.order t.deviceChanges) fromToken
        currentToken)).length := by
      have := length_pos_of_mem hmem
      rw [length_drop] at this
      omega
    cases hlimited : devicesLimited with
    | false =>
      have := (hdevices.last hlimited).2
      omega
    | true =>
      -- the last change that was read, the next one, and the one that is missing have one stream ID
      obtain ⟨_, last, hlast, rfl⟩ := hdevices.more hlimited
      have hnext := getElem?_eq_getElem hlength
      have hnextLe := le_of_mem_drop hsorted hnext hmem
      have hlastLe := le_of_mem_drop hsorted hlast (mem_iff_getElem?.mpr
        ⟨1, by rw [getElem?_drop, Nat.sub_add_cancel hlimit]; exact hnext⟩)
      refine ⟨last.1, ?_, ?_, fun streamId' hstreamId' => ?_⟩
      · rw [getElem?_map, hlast]
        rfl
      · rw [getElem?_map, hnext, Option.map_some]
        exact congrArg some (by omega)
      · rw [getElem?_map] at hstreamId'
        obtain ⟨signature, hsignature, rfl⟩ := Option.map_eq_some_iff.mp hstreamId'
        cases hlimited' : signaturesLimited with
        | false =>
          have := (hsignatures.last hlimited').2
          have := (List.getElem?_eq_some_iff.mp hsignature).1
          omega
        | true =>
          obtain ⟨_, row, hrow, rfl⟩ := hsignatures.more hlimited'
          obtain rfl : row = signature := Option.some.inj (hrow.symm.trans hsignature)
          omega

/-- The rows between two positions, source by source. -/
theorem between_rows (t : DeviceListsTables) (fromToken upper : ℤ) :
    between fst t.rows fromToken upper =
      (between fst t.deviceChanges fromToken upper).map deviceUpdate ++
        (between fst t.signatureChanges fromToken upper).map signatureUpdate := by
  unfold rows
  rw [between_append, between_map, between_map]
  rfl

/-- What every page has, complete or not. -/
structure PageSpec (t : DeviceListsTables) (fromToken currentToken : ℤ) (limit : ℕ)
    (page : Page DeviceListsUpdate) : Prop extends
      PartPage (fun u u' => u.1 ≤ u'.1) fst fromToken currentToken page where
  perm_iff : page.updates.Perm (between fst t.rows fromToken page.token) ↔
    ¬t.Splits fromToken currentToken limit

theorem page_spec (t : DeviceListsTables) (order : ℤ → RowOrder (ℤ × String))
    (fromToken currentToken : ℤ) (hlimit : 1 ≤ limit) :
    ∃ page, t.page order currentToken limit fromToken = some page ∧
      t.PageSpec fromToken currentToken limit page := by
  obtain ⟨devicesTo, devicesLimited, hdevices, hspec⟩ := limitedRows_spec fst
    ((order fromToken).order t.deviceChanges) fromToken currentToken hlimit
  obtain ⟨signaturesTo, signaturesLimited, hsignatures, hspec'⟩ := limitedRows_spec fst
    t.signatureChanges fromToken currentToken hlimit
  have hle := hspec.le
  have hle' := hspec'.le
  obtain ⟨updates, hmerge, hperm, hsorted⟩ := mergeByToken_spec (forall_mem_cons.mpr
    ⟨pairwise_map_updatedRows fst ((order fromToken).order t.deviceChanges) deviceUpdate
      fromToken currentToken (min devicesTo signaturesTo) limit fun _ => rfl, forall_mem_singleton.mpr
    (pairwise_map_updatedRows fst t.signatureChanges signatureUpdate fromToken currentToken
      (min devicesTo signaturesTo) limit fun _ => rfl)⟩)
  rw [flatten_cons, flatten_singleton] at hperm
  have hnodup : (t.signatureChanges.map fst).Nodup := by
    unfold signatureChanges
    rw [map_map]
    exact t.nodupUserSignatureStream
  have hsignaturesPerm : ((updatedRows fst t.signatureChanges fromToken currentToken limit).filter
      fun change => change.1 ≤ min devicesTo signaturesTo).Perm
      (between fst t.signatureChanges fromToken (min devicesTo signaturesTo)) :=
    filter_updatedRows_perm (by omega) fun row hrow =>
      lt_of_le_of_lt (min_le_right _ _) (hspec'.lt_of_nodup hlimit hnodup hrow)
  -- a source that is not limited does not lower the token
  have hupper : (if signaturesLimited then
        min (if devicesLimited then min currentToken devicesTo else currentToken) signaturesTo
      else (if devicesLimited then min currentToken devicesTo else currentToken)) =
      min devicesTo signaturesTo := by
    have hlast : devicesLimited = false → devicesTo = currentToken := fun h => (hspec.last h).1
    have hlast' : signaturesLimited = false → signaturesTo = currentToken := fun h => (hspec'.last h).1
    cases devicesLimited <;> cases signaturesLimited <;>
      simp only [if_true, Bool.false_eq_true, if_false, true_imp_iff] at hlast hlast' ⊢ <;> omega
  refine ⟨⟨updates, min devicesTo signaturesTo, devicesLimited || signaturesLimited⟩, ?_,
    ⟨hsorted, ?_, ?_, ?_⟩, ?_⟩
  · unfold page updateFunction getAllDeviceListChangesForRemotes getAllUserSignatureChangesForRemotes
    dsimp only [bind, Except.bind]
    rw [hdevices]
    rw [hsignatures]
    dsimp only [mergeUpdates]
    rw [hupper, hmerge]
    rfl
  · intro u hu
    rcases mem_append.mp (hperm.subset hu) with hu | hu
    all_goals
      obtain ⟨change, hchange, rfl⟩ := mem_map.mp hu
      obtain ⟨hmem, hupto⟩ := mem_filter.mp hchange
      exact ⟨(mem_between.mp (mem_of_mem_updatedRows hmem)).2.1, of_decide_eq_true hupto⟩
  · intro hlast
    obtain ⟨hlast, hlast'⟩ := Bool.or_eq_false_iff.mp hlast
    rw [(hspec.last hlast).1, (hspec'.last hlast').1, min_self]
  · intro hmore
    have hlt : fromToken < currentToken := by
      rcases (Bool.or_eq_true _ _).mp hmore with hmore | hmore
      · exact lt_of_lt_of_le (hspec.more hmore).1 hle
      · exact lt_of_lt_of_le (hspec'.more hmore).1 hle'
    exact ⟨lt_min (hspec.lt (.inr hlt)) (hspec'.lt (.inr hlt)), (min_le_left _ _).trans hle⟩
  · rw [← lt_of_mem_drop_iff hlimit hspec hspec', between_rows]
    constructor
    · intro hall
      refine lt_of_length_filter_updatedRows (by omega) ?_
      have hlength := (hperm.symm.trans hall).length_eq
      dsimp only at hlength
      rw [length_append, length_append, length_map, length_map, length_map,
        length_map, hsignaturesPerm.length_eq] at hlength
      rw [(between_perm ((order fromToken).perm t.deviceChanges)).length_eq]
      omega
    · intro hcut
      refine hperm.trans (.append (.map _ ?_) (hsignaturesPerm.map _))
      exact (filter_updatedRows_perm (by omega) hcut).trans
        (between_perm ((order fromToken).perm t.deviceChanges))

/-- If no stream ID is in both tables of devices, the limit never falls between two rows with the same
one. -/
theorem not_splits (hlimit : 1 ≤ limit)
    (hdisjoint : ∀ row ∈ t.deviceListsStream, ∀ row' ∈ t.deviceListsOutboundPokes,
      row.streamId ≠ row'.streamId) (fromToken currentToken : ℤ) :
    ¬t.Splits fromToken currentToken limit := by
  have hids : t.deviceChanges.map fst = t.deviceListsStream.map DeviceListsStreamRow.streamId ++
      t.deviceListsOutboundPokes.map DeviceListsOutboundPokesRow.streamId := by
    unfold deviceChanges
    rw [map_append, map_map, map_map]
    rfl
  have hnodup : (t.deviceIds fromToken currentToken).Nodup := by
    refine (orderBy_perm _).nodup_iff.mpr (.filter _ ?_)
    rw [hids]
    refine nodup_append.mpr
      ⟨t.nodupDeviceListsStream, t.nodupDeviceListsOutboundPokes, fun streamId hmem streamId' hmem' => ?_⟩
    obtain ⟨row, hrow, rfl⟩ := mem_map.mp hmem
    obtain ⟨row', hrow', rfl⟩ := mem_map.mp hmem'
    exact hdisjoint row hrow row' hrow'
  intro hsplits
  obtain ⟨streamId, hlast, hnext, _⟩ := hsplits
  obtain ⟨hlength, hlast⟩ := List.getElem?_eq_some_iff.mp hlast
  obtain ⟨hlength', hnext⟩ := List.getElem?_eq_some_iff.mp hnext
  have := (hnodup.getElem_inj_iff).mp (hlast.trans hnext.symm)
  omega

/-- **Reading page by page gives all changes exactly if on no page the limit falls between two changes of
devices that have the same stream ID.** -/
theorem readsAll_deviceLists_iff (t : DeviceListsTables) (order : ℤ → RowOrder (ℤ × String))
    (hle : fromToken ≤ currentToken) (hlimit : 1 ≤ limit) :
    ReadsAll (fun u u' => u.1 ≤ u'.1) fst t.rows (t.page order currentToken limit) fromToken
        currentToken ↔
      ∀ position, Visited (t.page order currentToken limit) fromToken position →
        ¬t.Splits position currentToken limit := by
  refine readsAll_iff_visited (fun _ _ hlt => hlt.le) hle fun position => ?_
  obtain ⟨page, hpage, hspec⟩ := t.page_spec order position currentToken hlimit
  exact ⟨page, hpage, hspec.toPartPage, hspec.perm_iff⟩

end DeviceListsTables

/-- **Reading the streams page by page.**  It always gives all account data, and it gives all changes of
device lists exactly if on no page the limit falls between two changes of devices that have the same
stream ID; in particular if no stream ID is in both tables of devices. -/
theorem readsAll_merged (accountData : AccountDataTables) (deviceLists : DeviceListsTables)
    (order : ℤ → RowOrder (ℤ × String)) (fromToken toToken : ℤ) (limit : ℕ) (hlt : fromToken < toToken)
    (hlimit : 1 ≤ limit) :
    ReadsAll (fun u u' => u.1 ≤ u'.1) fst accountData.rows (accountData.page toToken limit) fromToken
        toToken ∧
      (ReadsAll (fun u u' => u.1 ≤ u'.1) fst deviceLists.rows (deviceLists.page order toToken limit)
          fromToken toToken ↔
        ∀ position, Visited (deviceLists.page order toToken limit) fromToken position →
          ¬deviceLists.Splits position toToken limit) ∧
      ((∀ row ∈ deviceLists.deviceListsStream, ∀ row' ∈ deviceLists.deviceListsOutboundPokes,
          row.streamId ≠ row'.streamId) →
        ReadsAll (fun u u' => u.1 ≤ u'.1) fst deviceLists.rows
          (deviceLists.page order toToken limit) fromToken toToken) := by
  refine ⟨readsAll_of_completePage hlt.le fun _ => accountData.page_complete hlimit,
    deviceLists.readsAll_deviceLists_iff order hlt.le hlimit, fun hdisjoint => ?_⟩
  apply (deviceLists.readsAll_deviceLists_iff order hlt.le hlimit).mpr
  exact fun position _ => DeviceListsTables.not_splits hlimit hdisjoint position toToken

/-! ## A poke that is left out

The limit is 1.  A change of Alice's devices and a poke have the same stream ID. -/

def alicesAccountData : AccountDataTables where
  accountData := [⟨2, "@alice:hs", "m.push_rules"⟩]
  roomAccountData := [⟨2, "@alice:hs", "!room:hs", "m.fully_read"⟩, ⟨1, "@alice:hs", "!room:hs", "a"⟩]
  roomTagsRevisions := [⟨3, "@alice:hs", "!room:hs"⟩]
  nodupAccountData := by decide
  nodupRoomAccountData := by decide
  nodupRoomTagsRevisions := by decide

/-- A change of devices and a poke with the same stream ID. -/
def alicesDevices : DeviceListsTables where
  deviceListsStream := [⟨1, "@alice:hs"⟩]
  deviceListsOutboundPokes := [⟨1, "remote"⟩]
  userSignatureStream := [⟨2, "@alice:hs"⟩]
  nodupDeviceListsStream := by decide
  nodupDeviceListsOutboundPokes := by decide
  nodupUserSignatureStream := by decide

/-- The database has the rows as they are. -/
def unchangedOrder (α : Type) : RowOrder α := ⟨id, .refl⟩

/-- The poke is not read: the first page has the change of devices only, and goes on from its stream
ID. -/
theorem alicesDevices_not_readsAll :
    (pages (alicesDevices.page (fun _ => unchangedOrder _) 2 1) 3 0).map allUpdates =
        some [(1, "@alice:hs", false), (2, "@alice:hs", true)] ∧
      (1, "remote", false) ∈ between fst alicesDevices.rows 0 2 ∧
      ¬ReadsAll (fun u u' => u.1 ≤ u'.1) fst alicesDevices.rows
        (alicesDevices.page (fun _ => unchangedOrder _) 2 1) 0 2 := by
  refine ⟨?read, ?row, not_readsAll_of_not_mem ?read ?row ?_⟩
  all_goals decide +kernel

/-- A poke with a stream ID of its own. -/
def bobsDevices : DeviceListsTables where
  deviceListsStream := [⟨1, "@bob:hs"⟩]
  deviceListsOutboundPokes := [⟨2, "remote"⟩]
  userSignatureStream := [⟨3, "@bob:hs"⟩]
  nodupDeviceListsStream := by decide
  nodupDeviceListsOutboundPokes := by decide
  nodupUserSignatureStream := by decide

/-- With different stream IDs everything is read, also with a limit of 1. -/
theorem bobsDevices_readsAll :
    ReadsAll (fun u u' => u.1 ≤ u'.1) fst alicesAccountData.rows (alicesAccountData.page 3 1) 0 3 ∧
      ReadsAll (fun u u' => u.1 ≤ u'.1) fst bobsDevices.rows
        (bobsDevices.page (fun _ => unchangedOrder _) 3 1) 0 3 := by
  have h := readsAll_merged alicesAccountData bobsDevices (fun _ => unchangedOrder _) 0 3 1 (by decide)
    (by decide)
  exact ⟨h.1, h.2.2 (by decide)⟩

end Synapse.Replication
