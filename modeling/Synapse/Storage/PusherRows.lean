import Mathlib.Data.Prod.Lex
import Mathlib.Data.String.Basic
import Synapse.Util.Paging
import Synapse.Util.PyValue
import Synapse.Util.Select

/-!
# The rows of the pushers stream

`get_all_updated_pushers_rows` reads two tables, `pushers` and `deleted_pushers`, whose rows share one
sequence of stream IDs.  Each of the two queries has its own limit; their rows are put together, and if
there are as many as the limit, the reader is to go on from the last of them.

The rows of a page are sorted and lie between the position and the token of the page
(`PusherTables.page_spec`).  But if one query stops at its limit, the other may go further, and then the
token of the page is beyond rows of the first table that are not on the page; they are on no other page
either.  So reading page by page gives all rows exactly if on every page what the limit cuts off from
either query is above what the other one gives (`PusherTables.readsAll_iff`).
-/

namespace Synapse.Storage

open Synapse.Util List
open Prod (fst)

/-! ## The code -/

/-- What the stream reads of a row of `pushers`. -/
structure PusherRow where
  id : ℤ
  userName : String
  appId : String
  pushkey : String

/-- A row of `deleted_pushers`. -/
structure DeletedPusherRow where
  streamId : ℤ
  appId : String
  pushkey : String
  userId : String

/-- `(stream_id, (user_name, app_id, pushkey, deleted))`. -/
abbrev PusherUpdate := ℤ × String × String × String × Bool

def PusherRow.update (row : PusherRow) : PusherUpdate :=
  (row.id, row.userName, row.appId, row.pushkey, false)

def DeletedPusherRow.update (row : DeletedPusherRow) : PusherUpdate :=
  (row.streamId, row.userId, row.appId, row.pushkey, true)

/-- How Python compares two updates. -/
def PusherUpdate.sortKey (u : PusherUpdate) : ℤ ×ₗ String ×ₗ String ×ₗ String ×ₗ Bool :=
  toLex (u.1, toLex (u.2.1, toLex (u.2.2.1, toLex (u.2.2.2.1, u.2.2.2.2))))

/-- The two tables; their rows have different stream IDs. -/
structure PusherTables where
  pushers : List PusherRow
  deletedPushers : List DeletedPusherRow
  distinct : (pushers.map PusherRow.id ++ deletedPushers.map DeletedPusherRow.streamId).Nodup

namespace PusherTables

open PusherUpdate (sortKey)

/-- The rows of both tables, as updates. -/
def rows (t : PusherTables) : List PusherUpdate :=
  t.pushers.map PusherRow.update ++ t.deletedPushers.map DeletedPusherRow.update

variable (t : PusherTables) (lastId currentId : ℤ)

/-- What the first query would give without its limit. -/
def pusherUpdates : List PusherUpdate :=
  (orderBy PusherRow.id (between PusherRow.id t.pushers lastId currentId)).map PusherRow.update

/-- What the second query would give without its limit. -/
def deletedUpdates : List PusherUpdate := (orderBy DeletedPusherRow.streamId
    (between DeletedPusherRow.streamId t.deletedPushers lastId currentId)).map DeletedPusherRow.update

/-- What both would give. -/
abbrev updates : List PusherUpdate := t.pusherUpdates lastId currentId ++ t.deletedUpdates lastId currentId

/-- What the two queries give. -/
def selected (limit : ℕ) : List PusherUpdate :=
  (t.pusherUpdates lastId currentId).take limit ++ (t.deletedUpdates lastId currentId).take limit

/-- `get_all_updated_pushers_rows`. -/
def getAllUpdatedPushersRows (limit : ℕ) : Except PyError (Page PusherUpdate) :=
  if lastId = currentId then .ok ⟨[], currentId, false⟩
  else
    let updates := orderBy sortKey (t.selected lastId currentId limit)
    if updates.length ≥ limit then
      match updates.getLast? with
      | none => .error .indexError
      | some last => .ok ⟨updates, last.1, true⟩
    else .ok ⟨updates, currentId, false⟩

def page (t : PusherTables) (currentId : ℤ) (limit : ℕ) (lastId : ℤ) : Option (Page PusherUpdate) :=
  (t.getAllUpdatedPushersRows lastId currentId limit).toOption

/-- What the limit cuts off from either query is above what the other query gives. -/
def CutsAbove (limit : ℕ) : Prop := (∀ u ∈ (t.pusherUpdates lastId currentId).drop limit,
      ∀ u' ∈ (t.deletedUpdates lastId currentId).take limit, u'.1 < u.1) ∧
    ∀ u ∈ (t.deletedUpdates lastId currentId).drop limit,
      ∀ u' ∈ (t.pusherUpdates lastId currentId).take limit, u'.1 < u.1

/-! ## What the queries select -/

variable {t : PusherTables} {lastId currentId : ℤ} {limit : ℕ}

theorem nodup_rows (t : PusherTables) : (t.rows.map fst).Nodup := by
  have hids : t.rows.map fst =
      t.pushers.map PusherRow.id ++ t.deletedPushers.map DeletedPusherRow.streamId := by
    unfold rows
    rw [map_append, map_map, map_map]
    rfl
  rw [hids]
  exact t.distinct

variable (t lastId currentId)

/-- The rows between two positions are what the two queries would give. -/
theorem updates_perm : (t.updates lastId currentId).Perm (between fst t.rows lastId currentId) := by
  have hrows : between fst t.rows lastId currentId =
      (between PusherRow.id t.pushers lastId currentId).map PusherRow.update ++
        (between DeletedPusherRow.streamId t.deletedPushers lastId currentId).map
          DeletedPusherRow.update := by
    unfold rows
    rw [between_append, between_map, between_map]
    rfl
  rw [hrows]
  exact ((orderBy_perm _).map _).append ((orderBy_perm _).map _)

theorem nodup_updates : ((t.updates lastId currentId).map fst).Nodup :=
  ((t.updates_perm lastId currentId).map fst).nodup_iff.mpr
    (t.nodup_rows.sublist (filter_sublist.map _))

theorem selected_sublist (limit : ℕ) :
    (t.selected lastId currentId limit).Sublist (t.updates lastId currentId) :=
  Sublist.append (take_sublist _ _) (take_sublist _ _)

variable {t lastId currentId}

/-- If there are fewer rows than the limit, none has been cut off. -/
theorem selected_eq (h : (t.selected lastId currentId limit).length < limit) :
    t.selected lastId currentId limit = t.updates lastId currentId := by
  have hall : ∀ {us : List PusherUpdate}, (us.take limit).length < limit → us.take limit = us := by
    intro us hlt
    rw [length_take] at hlt
    exact take_of_length_le (by omega)
  unfold selected at h ⊢
  rw [length_append] at h
  rw [hall (by omega), hall (by omega)]

theorem nodup_selected (t : PusherTables) (lastId currentId : ℤ) (limit : ℕ) :
    ((t.selected lastId currentId limit).map fst).Nodup :=
   (t.nodup_updates lastId currentId).sublist ((t.selected_sublist lastId currentId limit).map _)

/-- The updates are sorted by their stream IDs. -/
theorem pairwise_lt_selected (t : PusherTables) (lastId currentId : ℤ) (limit : ℕ) :
    (orderBy sortKey (t.selected lastId currentId limit)).Pairwise
      fun u u' => u.1 < u'.1 := by
  have hne : (orderBy sortKey (t.selected lastId currentId limit)).Pairwise
      fun u u' => u.1 ≠ u'.1 :=
    pairwise_map.mp (((orderBy_perm _).map fst).nodup_iff.mpr
      (t.nodup_selected lastId currentId limit))
  refine ((pairwise_le_orderBy _).and hne).imp fun {u u'} h => ?_
  have hle : u.1 ≤ u'.1 := (Prod.Lex.toLex_le_toLex'.mp h.1).1
  omega

variable {us : List PusherUpdate}

/-- What a query gives comes before what its limit cuts off. -/
theorem lt_of_mem_take_of_mem_drop (h : Increasing Prod.fst us)
    {u u' : PusherUpdate} (hu : u ∈ us.take limit) (hu' : u' ∈ us.drop limit) : u.1 < u'.1 := by
  rw [← take_append_drop limit us] at h
  exact (pairwise_append.mp h).2.2 u hu u' hu'

variable {u : PusherUpdate}

theorem mem_take_or_mem_drop (n : ℕ) (hu : u ∈ us) : u ∈ us.take n ∨ u ∈ us.drop n := by
  rw [← mem_append, take_append_drop]
  exact hu

theorem not_mem_both (t : PusherTables) (hu : u ∈ t.pusherUpdates lastId currentId)
    (hu' : u ∈ t.deletedUpdates lastId currentId) : False := by
  have hnodup := t.nodup_updates lastId currentId
  rw [map_append] at hnodup
  exact (nodup_append.mp hnodup).2.2 _ (mem_map_of_mem hu) _ (mem_map_of_mem hu') rfl

variable (t lastId currentId)

theorem pairwise_lt_pusherUpdates :
    Increasing Prod.fst (t.pusherUpdates lastId currentId) := by
  apply pairwise_map.mpr
  apply pairwise_lt_orderBy
  exact (nodup_append.mp t.distinct).1.sublist (filter_sublist.map _)

theorem pairwise_lt_deletedUpdates :
    Increasing Prod.fst (t.deletedUpdates lastId currentId) := by
  apply pairwise_map.mpr
  apply pairwise_lt_orderBy
  exact (nodup_append.mp t.distinct).2.1.sublist (filter_sublist.map _)

/-! ## A page -/

/-- What a page has: what the queries give, sorted, up to its token; all rows if it is the last one. -/
structure PageSpec (limit : ℕ) (page : Page PusherUpdate) : Prop where
  mem : ∀ u, u ∈ page.updates ↔ u ∈ t.selected lastId currentId limit
  sorted : Increasing Prod.fst page.updates
  below : ∀ u ∈ page.updates, u.1 ≤ page.token
  last : page.limited = false → page.token = currentId ∧
    t.selected lastId currentId limit = t.updates lastId currentId
  more : page.limited = true → ∃ u ∈ page.updates, u.1 = page.token

theorem page_spec (hlimit : 1 ≤ limit) :
    ∃ page, t.page currentId limit lastId = some page ∧ t.PageSpec lastId currentId limit page := by
  unfold PusherTables.page getAllUpdatedPushersRows
  split
  next heq =>
    have hnone : t.updates lastId currentId = [] := by
      have hperm := t.updates_perm lastId currentId
      rw [heq, between_self] at hperm
      rw [heq, hperm.eq_nil]
    have hselected : t.selected lastId currentId limit = [] :=
      sublist_nil.mp (hnone ▸ t.selected_sublist lastId currentId limit)
    refine ⟨_, rfl, fun u => ?_, .nil, nofun, fun _ => ⟨rfl, ?_⟩, nofun⟩
    · rw [hselected]
    · rw [hselected, hnone]
  · have hmem : ∀ u, u ∈ orderBy sortKey (t.selected lastId currentId limit) ↔
        u ∈ t.selected lastId currentId limit := fun _ => mem_orderBy
    have hsorted := t.pairwise_lt_selected lastId currentId limit
    dsimp only
    split
    next hlen =>
      -- the updates are not empty, and the last one has the greatest stream ID
      cases hlast : (orderBy sortKey (t.selected lastId currentId limit)).getLast? with
      | none =>
        rw [getLast?_eq_none_iff.mp hlast, length_nil] at hlen
        omega
      | some last =>
        exact ⟨_, rfl, hmem, hsorted, fun u hu => le_getLast (hsorted.imp le_of_lt) hlast hu, nofun,
          fun _ => ⟨last, mem_of_mem_getLast? hlast, rfl⟩⟩
    next hlen =>
      have hfew : (t.selected lastId currentId limit).length < limit := by
        have hlength := (orderBy_perm (t.selected lastId currentId limit) :
          (orderBy sortKey _).Perm _).length_eq
        omega
      refine ⟨_, rfl, hmem, hsorted, fun u hu => ?_, fun _ => ⟨rfl, selected_eq hfew⟩, nofun⟩
      have hrow := (t.updates_perm lastId currentId).subset
        ((t.selected_sublist lastId currentId limit).subset ((hmem u).mp hu))
      exact (mem_between.mp hrow).2.2

variable {t lastId currentId}

section
variable {page : Page PusherUpdate}

section
variable (h : t.PageSpec lastId currentId limit page)
include h

/-- The rows of a page lie between the position and its token. -/
theorem PageSpec.rows (hu : u ∈ page.updates) : u ∈ between fst t.rows lastId currentId :=
  (t.updates_perm lastId currentId).subset
    ((t.selected_sublist lastId currentId limit).subset ((h.mem u).mp hu))

theorem PageSpec.token_le : page.token ≤ currentId := by
  cases hlimited : page.limited with
  | false => exact (h.last hlimited).1.le
  | true =>
    obtain ⟨u, hu, htoken⟩ := h.more hlimited
    exact htoken ▸ (mem_between.mp (h.rows hu)).2.2

theorem PageSpec.part (hu : u ∈ page.updates) : lastId < u.1 ∧ u.1 ≤ page.token :=
  ⟨(mem_between.mp (h.rows hu)).2.1, h.below u hu⟩

/-- **A page has all rows up to its token** exactly if what is cut off from either query is above what
the other one gives. -/
theorem PageSpec.all_iff : (∀ row ∈ between fst t.rows lastId page.token, row ∈ page.updates) ↔
      t.CutsAbove lastId currentId limit := by
  have hpushers := t.pairwise_lt_pusherUpdates lastId currentId
  have hdeleted := t.pairwise_lt_deletedUpdates lastId currentId
  constructor
  · intro hall
    -- a row that is cut off is not on the page, so it is above its token
    have habove : ∀ u ∈ t.updates lastId currentId,
        u ∉ t.selected lastId currentId limit → ∀ u' ∈ t.selected lastId currentId limit, u'.1 < u.1 := by
      intro u hu hcut u' hu'
      by_contra hle
      obtain ⟨hrow, hlow, _⟩ := mem_between.mp ((t.updates_perm lastId currentId).subset hu)
      have htoken := h.below u' ((h.mem u').mpr hu')
      exact hcut ((h.mem u).mp (hall u (mem_between.mpr ⟨hrow, hlow, by omega⟩)))
    refine ⟨fun u hu u' hu' => ?_, fun u hu u' hu' => ?_⟩
    · refine habove u (mem_append_left _ (mem_of_mem_drop hu)) (fun hmem => ?_) u'
        (mem_append_right _ hu')
      rcases mem_append.mp hmem with hmem | hmem
      · exact absurd (lt_of_mem_take_of_mem_drop hpushers hmem hu) (lt_irrefl _)
      · exact t.not_mem_both (mem_of_mem_drop hu) (mem_of_mem_take hmem)
    · refine habove u (mem_append_right _ (mem_of_mem_drop hu)) (fun hmem => ?_) u'
        (mem_append_left _ hu')
      rcases mem_append.mp hmem with hmem | hmem
      · exact t.not_mem_both (mem_of_mem_take hmem) (mem_of_mem_drop hu)
      · exact absurd (lt_of_mem_take_of_mem_drop hdeleted hmem hu) (lt_irrefl _)
  · intro hcuts row hrow
    obtain ⟨hmem, hlow, hhigh⟩ := mem_between.mp hrow
    have hupdate := (t.updates_perm lastId currentId).mem_iff.mpr
        (mem_between.mpr ⟨hmem, hlow, hhigh.trans h.token_le⟩)
    rw [h.mem]
    cases hlimited : page.limited with
    | false => exact (h.last hlimited).2 ▸ hupdate
    | true =>
      -- if the row were cut off, it would be above the row that the token is from
      obtain ⟨v, hv, htoken⟩ := h.more hlimited
      have hv := mem_append.mp ((h.mem v).mp hv)
      rcases mem_append.mp hupdate with hupdate | hupdate
      · rcases mem_take_or_mem_drop limit hupdate with htake | hdrop
        · exact mem_append_left _ htake
        · have hlt : v.1 < row.1 := hv.elim
            (fun hv => lt_of_mem_take_of_mem_drop hpushers hv hdrop) (hcuts.1 row hdrop v)
          omega
      · rcases mem_take_or_mem_drop limit hupdate with htake | hdrop
        · exact mem_append_right _ htake
        · have hlt : v.1 < row.1 := hv.elim (hcuts.2 row hdrop v)
            fun hv => lt_of_mem_take_of_mem_drop hdeleted hv hdrop
          omega

/-- A page that has all rows up to its token has each of them once. -/
theorem PageSpec.perm (hall : ∀ row ∈ between fst t.rows lastId page.token, row ∈ page.updates) :
    page.updates.Perm (between fst t.rows lastId page.token) := by
  refine (perm_ext_iff_of_nodup ?_ ?_).mpr fun row => ⟨fun hrow => ?_, hall row⟩
  · exact nodup_of_pairwise_lt h.sorted
  · exact (t.nodup_rows.of_map _).filter _
  · exact mem_between.mpr ⟨(mem_between.mp (h.rows hrow)).1, h.part hrow⟩

end
end

/-! ## All pages -/

/-- **Reading page by page gives all rows exactly if, wherever a page is asked for, what the limit cuts
off from either query is above what the other one gives.** -/
theorem readsAll_iff (t : PusherTables) (lastId currentId : ℤ) (limit : ℕ) (hlt : lastId < currentId)
    (hlimit : 1 ≤ limit) :
    ReadsAll (fun u u' => u.1 < u'.1) fst t.rows (t.page currentId limit) lastId currentId ↔
      ∀ position, Visited (t.page currentId limit) lastId position →
        t.CutsAbove position currentId limit := by
  refine readsAll_iff_visited (fun _ _ => id) hlt.le fun position => ?_
  obtain ⟨page, hpage, hspec⟩ := t.page_spec position currentId hlimit
  refine ⟨page, hpage, ⟨hspec.sorted, fun u hu => hspec.part hu, fun hlast => (hspec.last hlast).1,
    fun hmore => ?_⟩, ?_⟩
  · obtain ⟨u, hu, htoken⟩ := hspec.more hmore
    exact ⟨htoken ▸ (hspec.part hu).1, hspec.token_le⟩
  · rw [← hspec.all_iff]
    exact ⟨fun hperm row hrow => hperm.mem_iff.mpr hrow, hspec.perm⟩

/-! ## A pusher that is left out

The limit is 1.  Alice's pushers have the IDs 1 and 2, a pusher with the ID 3 has been deleted. -/

def alicesPushers : PusherTables where
  pushers := [⟨1, "@alice:hs", "app", "phone"⟩, ⟨2, "@alice:hs", "app", "tablet"⟩]
  deletedPushers := [⟨3, "app", "watch", "@alice:hs"⟩]
  distinct := by decide

/-- The pusher with the ID 2 is not read: the first page has the rows 1 and 3, and goes on from 3. -/
theorem alicesPushers_not_readsAll : (pages (alicesPushers.page 3 1) 4 0).map allUpdates =
        some [(1, "@alice:hs", "app", "phone", false), (3, "@alice:hs", "app", "watch", true)] ∧
      (2, "@alice:hs", "app", "tablet", false) ∈ between fst alicesPushers.rows 0 3 ∧
      ¬ReadsAll (fun u u' => u.1 < u'.1) fst alicesPushers.rows (alicesPushers.page 3 1) 0 3 := by
  refine ⟨?read, ?row, not_readsAll_of_not_mem ?read ?row ?_⟩
  all_goals decide +kernel

/-- With a limit of 3 everything is read, and nothing cut off. -/
theorem alicesPushers_readsAll :
    ReadsAll (fun u u' => u.1 < u'.1) fst alicesPushers.rows (alicesPushers.page 3 3) 0 3 ∧
      ∀ position, Visited (alicesPushers.page 3 3) 0 position → alicesPushers.CutsAbove position 3 3 := by
  have hread : (pages (alicesPushers.page 3 3) 4 0).map allUpdates =
      some [(1, "@alice:hs", "app", "phone", false), (2, "@alice:hs", "app", "tablet", false),
        (3, "@alice:hs", "app", "watch", true)] := by decide +kernel
  obtain ⟨ps, hps, hall⟩ := Option.map_eq_some_iff.mp hread
  have hreads : ReadsAll (fun u u' => u.1 < u'.1) fst alicesPushers.rows
      (alicesPushers.page 3 3) 0 3 := by
    refine ⟨4, ps, hps, ?_, ?_⟩
    · rw [hall]
      exact .refl _
    · rw [hall]
      decide
  exact ⟨hreads, (alicesPushers.readsAll_iff 0 3 3 (by decide) (by decide)).mp hreads⟩

end PusherTables
end Synapse.Storage
