import Synapse.Storage.EventRows
import Synapse.Util.PyValue

/-!
# The rows of the backfill stream

`get_all_new_backfill_event_rows` reads the events of a writer and then its rows of `ex_outlier_stream`.
The stream IDs are negative in the database and positive in the stream, so the first query, which sorts
by the ascending stream ID of the database, gives the events in *descending* order of their tokens, and
its limit cuts off the lowest ones.

A page therefore begins with the event that has the greatest token of all.  If the pages together are
sorted, nothing on them is below that token; and what is not above the token of the first page is on no
later one.  So reading page by page gives all rows in order exactly if there is at most one event, and no
other row below it (`EventTables.backfill_readsAll_iff`).
-/

namespace Synapse.Storage

open Synapse.Util List
open Prod (fst)

/-! ## The code -/

/-- `BackfillStreamRow`. -/
structure BackfillStreamRow where
  eventId : String
  roomId : String
  type : String
  stateKey : Option String
  redacts : Option String
  relatesTo : Option String
deriving DecidableEq

abbrev BackfillUpdate := ℤ × BackfillStreamRow

namespace EventTables

/-- What the stream says about an event. -/
def backfillRow (t : EventTables) (e : EventsRow) : BackfillStreamRow where
  eventId := e.eventId
  roomId := e.roomId
  type := e.type
  stateKey := t.stateEvents.lookup e.eventId
  redacts := t.redactions.lookup e.eventId
  relatesTo := t.eventRelations.lookup e.eventId

variable (t : EventTables) (instanceName : String)

/-- What the first query would give without its limit. -/
def backfilledUpdates (lastId currentId : ℤ) : List BackfillUpdate :=
  (orderBy EventsRow.streamOrdering ((t.writerEvents instanceName).filter fun e =>
      -lastId > e.streamOrdering ∧ e.streamOrdering ≥ -currentId)).map fun e =>
    (-e.streamOrdering, t.backfillRow e)

/-- What the second query gives; it is sorted by the descending stream ID of the database. -/
def exOutlierUpdates (lastId upperBound : ℤ) : List BackfillUpdate :=
  (orderBy (fun out => -out.1.eventStreamOrdering) ((t.writerExOutliers instanceName).filter fun out =>
      -lastId > out.1.eventStreamOrdering ∧ out.1.eventStreamOrdering ≥ -upperBound)).map fun out =>
    (-out.1.eventStreamOrdering, t.backfillRow out.2)

/-- `new_event_updates[-1][0]`. -/
def lastToken (updates : List BackfillUpdate) : Except PyError ℤ :=
  match updates.getLast? with
  | none => .error .indexError
  | some last => .ok last.1

/-- `get_all_new_backfill_event_rows`. -/
def getAllNewBackfillEventRows (lastId currentId : ℤ) (limit : ℕ) :
    Except PyError (Page BackfillUpdate) :=
  if lastId = currentId then .ok ⟨[], currentId, false⟩
  else do
    let newEventUpdates := (t.backfilledUpdates instanceName lastId currentId).take limit
    let limited := newEventUpdates.length = limit
    let upperBound ← if limited then lastToken newEventUpdates else pure currentId
    let newEventUpdates := newEventUpdates ++ t.exOutlierUpdates instanceName lastId upperBound
    if newEventUpdates.length ≥ limit then
      pure ⟨newEventUpdates, ← lastToken newEventUpdates, true⟩
    else pure ⟨newEventUpdates, upperBound, limited⟩

def backfillPage (currentId : ℤ) (limit : ℕ) (lastId : ℤ) : Option (Page BackfillUpdate) :=
  (t.getAllNewBackfillEventRows instanceName lastId currentId limit).toOption

/-- The rows of the stream, with the tokens it gives them. -/
def backfillRows : List BackfillUpdate :=
  ((t.writerEvents instanceName).map fun e => (-e.streamOrdering, t.backfillRow e)) ++
    (t.writerExOutliers instanceName).map fun out => (-out.1.eventStreamOrdering, t.backfillRow out.2)

/-- At most one event has been backfilled between two positions, and no other row is below it. -/
structure AtMostOneFirst (t : EventTables) (instanceName : String) (lastId currentId : ℤ) : Prop where
  one : (t.backfilledUpdates instanceName lastId currentId).length ≤ 1
  first : ∀ u ∈ t.backfilledUpdates instanceName lastId currentId,
    ∀ u' ∈ t.exOutlierUpdates instanceName lastId currentId, u.1 < u'.1

/-! ## What the queries select -/

variable {t : EventTables} {instanceName : String} {lastId currentId upperBound : ℤ} {limit : ℕ}

theorem nodup_backfillRows (t : EventTables) (instanceName : String) :
    ((t.backfillRows instanceName).map fst).Nodup := by
  have hids : (t.backfillRows instanceName).map fst =
      ((t.writerEvents instanceName).map EventsRow.streamOrdering ++
        (t.writerExOutliers instanceName).map fun out => out.1.eventStreamOrdering).map Neg.neg := by
    unfold backfillRows
    rw [map_append, map_append, map_map, map_map, map_map, map_map]
    rfl
  rw [hids]
  exact (t.nodup_streamIds instanceName).map neg_injective

variable (t instanceName lastId currentId)

/-- The rows between two positions are what the two queries would give. -/
theorem backfill_updates_perm : (t.backfilledUpdates instanceName lastId currentId ++
        t.exOutlierUpdates instanceName lastId currentId).Perm
      (between fst (t.backfillRows instanceName) lastId currentId) := by
  have hrange : ∀ n, decide (-lastId > n ∧ n ≥ -currentId) =
      decide (lastId < -n ∧ -n ≤ currentId) := by
    intro n
    rw [decide_eq_decide]
    omega
  have hrows : between fst (t.backfillRows instanceName) lastId currentId =
      ((t.writerEvents instanceName).filter fun e =>
          -lastId > e.streamOrdering ∧ e.streamOrdering ≥ -currentId).map
        (fun e => (-e.streamOrdering, t.backfillRow e)) ++
      ((t.writerExOutliers instanceName).filter fun out =>
          -lastId > out.1.eventStreamOrdering ∧ out.1.eventStreamOrdering ≥ -currentId).map
        (fun out => (-out.1.eventStreamOrdering, t.backfillRow out.2)) := by
    unfold backfillRows
    rw [between_append]
    unfold between
    rw [filter_map, filter_map]
    simp only [hrange]
    rfl
  rw [hrows]
  exact ((orderBy_perm _).map _).append ((orderBy_perm _).map _)

theorem nodup_updates : ((t.backfilledUpdates instanceName lastId currentId ++
      t.exOutlierUpdates instanceName lastId currentId).map fst).Nodup :=
  ((t.backfill_updates_perm instanceName lastId currentId).map fst).nodup_iff.mpr
    ((t.nodup_backfillRows instanceName).sublist (filter_sublist.map _))

/-- The events come in descending order of their tokens. -/
theorem pairwise_gt_backfilledUpdates :
    (t.backfilledUpdates instanceName lastId currentId).Pairwise fun u u' => u'.1 < u.1 := by
  apply pairwise_map.mpr
  have hsorted : (orderBy EventsRow.streamOrdering ((t.writerEvents instanceName).filter fun e =>
      -lastId > e.streamOrdering ∧ e.streamOrdering ≥ -currentId)).Pairwise
      fun e e' => e.streamOrdering < e'.streamOrdering := by
    apply pairwise_lt_orderBy
    exact (nodup_append.mp (t.nodup_streamIds instanceName)).1.sublist (filter_sublist.map _)
  exact hsorted.imp fun h => neg_lt_neg h

/-- The rows of `ex_outlier_stream` come in ascending order. -/
theorem pairwise_lt_exOutlierUpdates (upperBound : ℤ) :
    Increasing Prod.fst (t.exOutlierUpdates instanceName lastId upperBound) := by
  apply pairwise_map.mpr
  apply pairwise_lt_orderBy
  have hids := (nodup_append.mp (t.nodup_streamIds instanceName)).2.1.map neg_injective
  rw [map_map] at hids
  exact hids.sublist (filter_sublist.map _)

variable {t instanceName lastId currentId} {u : BackfillUpdate}

/-- The rows of either query: what is selected by a stream ordering, with its negative as the token. -/
theorem mem_map_orderBy_filter {α : Type} {so key : α → ℤ} {row : α → BackfillStreamRow} {rows : List α} :
    u ∈ (orderBy key (rows.filter fun x => -lastId > so x ∧ so x ≥ -upperBound)).map
        (fun x => (-so x, row x)) ↔
      u ∈ rows.map (fun x => (-so x, row x)) ∧ lastId < u.1 ∧ u.1 ≤ upperBound := by
  rw [mem_map, mem_map]
  constructor
  · intro h
    obtain ⟨x, hx, rfl⟩ := h
    obtain ⟨hmem, hrange⟩ := mem_filter.mp (mem_orderBy.mp hx)
    rw [decide_eq_true_iff] at hrange
    exact ⟨⟨x, hmem, rfl⟩, by omega, by omega⟩
  · intro h
    obtain ⟨⟨x, hmem, rfl⟩, hlow, hhigh⟩ := h
    refine ⟨x, mem_orderBy.mpr (mem_filter.mpr ⟨hmem, ?_⟩), rfl⟩
    rw [decide_eq_true_iff]
    omega

theorem mem_backfilledUpdates : u ∈ t.backfilledUpdates instanceName lastId currentId ↔
      u ∈ (t.writerEvents instanceName).map (fun e => (-e.streamOrdering, t.backfillRow e)) ∧
        lastId < u.1 ∧ u.1 ≤ currentId := mem_map_orderBy_filter

theorem mem_exOutlierUpdates : u ∈ t.exOutlierUpdates instanceName lastId upperBound ↔
      u ∈ (t.writerExOutliers instanceName).map (fun out =>
        (-out.1.eventStreamOrdering, t.backfillRow out.2)) ∧ lastId < u.1 ∧ u.1 ≤ upperBound :=
  mem_map_orderBy_filter

/-! ## A page -/

/-- If there are updates, there is a last one. -/
theorem lastToken_spec {updates : List BackfillUpdate} (h : 0 < updates.length) :
    ∃ front u, updates = front ++ [u] ∧ lastToken updates = .ok u.1 := by
  have hne := ne_nil_of_length_pos h
  refine ⟨_, _, (dropLast_append_getLast hne).symm, ?_⟩
  unfold lastToken
  rw [getLast?_eq_some_getLast hne]

/-- What a page has: the events up to the limit, the greatest ones first, and then the rows of
`ex_outlier_stream` up to the last of these events, if the limit has been reached. -/
structure BackfillSpec (t : EventTables) (instanceName : String) (lastId currentId : ℤ) (limit : ℕ)
    (upperBound : ℤ) (page : Page BackfillUpdate) : Prop where
  updates : page.updates = (t.backfilledUpdates instanceName lastId currentId).take limit ++
    t.exOutlierUpdates instanceName lastId upperBound
  whole : (t.backfilledUpdates instanceName lastId currentId).length < limit → upperBound = currentId
  cut : limit ≤ (t.backfilledUpdates instanceName lastId currentId).length → ∃ front u,
    (t.backfilledUpdates instanceName lastId currentId).take limit = front ++ [u] ∧ upperBound = u.1
  more : page.limited = true → ∃ front u, page.updates = front ++ [u] ∧ page.token = u.1
  last : page.limited = false → page.token = currentId ∧
    (t.backfilledUpdates instanceName lastId currentId).length < limit

theorem backfillPage_spec (t : EventTables) (instanceName : String) (lastId currentId : ℤ)
    (hlimit : 1 ≤ limit) :
    ∃ page upperBound, t.backfillPage instanceName currentId limit lastId = some page ∧
      t.BackfillSpec instanceName lastId currentId limit upperBound page := by
  unfold backfillPage getAllNewBackfillEventRows
  split
  next heq =>
    -- between a position and itself there is nothing
    have hperm := t.backfill_updates_perm instanceName lastId currentId
    rw [heq, between_self] at hperm
    obtain ⟨hevents, hout⟩ := append_eq_nil_iff.mp hperm.eq_nil
    rw [heq]
    have hnone : (t.backfilledUpdates instanceName currentId currentId).length < limit := by
      rw [hevents]
      exact hlimit
    refine ⟨_, currentId, rfl, ?_, fun _ => rfl, fun hcut => absurd hnone (by omega), nofun,
      fun _ => ⟨rfl, hnone⟩⟩
    rw [hevents, hout, take_nil]
    rfl
  · by_cases hlen : limit ≤ (t.backfilledUpdates instanceName lastId currentId).length
    · have htake : ((t.backfilledUpdates instanceName lastId currentId).take limit).length = limit := by
        rw [length_take]
        omega
      obtain ⟨front, u, hfront, htoken⟩ := lastToken_spec (htake.symm ▸ hlimit)
      have hall : limit ≤ ((t.backfilledUpdates instanceName lastId currentId).take limit ++
          t.exOutlierUpdates instanceName lastId u.1).length := by
        rw [length_append]
        omega
      obtain ⟨front', u', hfront', htoken'⟩ := lastToken_spec (hlimit.trans hall)
      refine ⟨⟨_, u'.1, true⟩, u.1, ?_, rfl, fun h => absurd h (by omega),
        fun _ => ⟨front, u, hfront, rfl⟩, fun _ => ⟨front', u', hfront', rfl⟩, nofun⟩
      rw [if_pos htake, htoken]
      show Except.toOption (if _ then _ else _) = _
      rw [if_pos hall, htoken']
      rfl
    · have htake : ((t.backfilledUpdates instanceName lastId currentId).take limit).length ≠ limit := by
        rw [length_take]
        omega
      rw [if_neg htake]
      by_cases hall : limit ≤ ((t.backfilledUpdates instanceName lastId currentId).take limit ++
          t.exOutlierUpdates instanceName lastId currentId).length
      · obtain ⟨front, u, hfront, htoken⟩ := lastToken_spec (hlimit.trans hall)
        refine ⟨⟨_, u.1, true⟩, currentId, ?_, rfl, fun _ => rfl, fun h => absurd h hlen,
          fun _ => ⟨front, u, hfront, rfl⟩, nofun⟩
        show Except.toOption (if _ then _ else _) = _
        rw [if_pos hall, htoken]
        rfl
      · refine ⟨⟨_, currentId, false⟩, currentId, ?_, rfl, fun _ => rfl, fun h => absurd h hlen, nofun,
          fun _ => ⟨rfl, by omega⟩⟩
        show Except.toOption (if _ then _ else _) = _
        rw [if_neg hall, decide_eq_false htake]
        rfl

section
variable {page : Page BackfillUpdate}

section
variable (h : t.BackfillSpec instanceName lastId currentId limit upperBound page)
include h

theorem BackfillSpec.upper_le : upperBound ≤ currentId := by
  by_cases hlen : limit ≤ (t.backfilledUpdates instanceName lastId currentId).length
  · obtain ⟨front, u, hfront, hupper⟩ := h.cut hlen
    have hu : u ∈ (t.backfilledUpdates instanceName lastId currentId).take limit :=
      hfront ▸ mem_append_cons_self
    rw [hupper]
    exact (mem_backfilledUpdates.mp (mem_of_mem_take hu)).2.2
  · exact (h.whole (by omega)).le

variable {u : BackfillUpdate}

/-- The rows of a page lie between the two positions. -/
theorem BackfillSpec.mem (hu : u ∈ page.updates) :
    u ∈ between fst (t.backfillRows instanceName) lastId currentId := by
  rw [h.updates] at hu
  rcases mem_append.mp hu with hu | hu
  · obtain ⟨hmem, hrange⟩ := mem_backfilledUpdates.mp (mem_of_mem_take hu)
    exact mem_between.mpr ⟨mem_append_left _ hmem, hrange⟩
  · obtain ⟨hmem, hlow, hhigh⟩ := mem_exOutlierUpdates.mp hu
    exact mem_between.mpr ⟨mem_append_right _ hmem, hlow, hhigh.trans h.upper_le⟩

/-- A page that is not the last one moves the position, but not beyond the end. -/
theorem BackfillSpec.progress (hmore : page.limited = true) :
    lastId < page.token ∧ page.token ≤ currentId := by
  obtain ⟨front, u, hfront, htoken⟩ := h.more hmore
  have hu : u ∈ page.updates := hfront ▸ mem_append_cons_self
  rw [htoken]
  exact (mem_between.mp (h.mem hu)).2

theorem BackfillSpec.token_le : page.token ≤ currentId := by
  cases hlimited : page.limited with
  | false => exact (h.last hlimited).1.le
  | true => exact (h.progress hlimited).2

/-- A page begins with the event that has the greatest token. -/
theorem BackfillSpec.head (hlimit : 1 ≤ limit) {rest : List BackfillUpdate}
    (hevents : t.backfilledUpdates instanceName lastId currentId = u :: rest) :
    ∃ more, page.updates = u :: more := by
  obtain ⟨n, rfl⟩ : ∃ n, limit = n + 1 := ⟨limit - 1, by omega⟩
  rw [h.updates, hevents, take_succ_cons]
  exact ⟨_, rfl⟩

end

/-! ### Where at most one event comes first -/

section
variable (h : t.AtMostOneFirst instanceName lastId currentId)
include h

/-- Later positions have fewer rows after them. -/
theorem AtMostOneFirst.mono {position : ℤ} (hle : lastId ≤ position) :
    t.AtMostOneFirst instanceName position currentId := by
  have hevents : t.backfilledUpdates instanceName position currentId ⊆
      t.backfilledUpdates instanceName lastId currentId := by
    intro u hu
    obtain ⟨hmem, hlow, hhigh⟩ := mem_backfilledUpdates.mp hu
    exact mem_backfilledUpdates.mpr ⟨hmem, by omega, hhigh⟩
  have hnodup : (t.backfilledUpdates instanceName position currentId).Nodup :=
    (t.pairwise_gt_backfilledUpdates instanceName position currentId).imp fun hlt =>
      ne_of_apply_ne fst hlt.ne'
  refine ⟨(subperm_of_subset hnodup hevents).length_le.trans h.one, fun u hu u' hu' => ?_⟩
  obtain ⟨hmem, hlow, hhigh⟩ := mem_exOutlierUpdates.mp hu'
  exact h.first u (hevents hu) u' (mem_exOutlierUpdates.mpr ⟨hmem, by omega, hhigh⟩)

variable (hspec : t.BackfillSpec instanceName lastId currentId limit upperBound page)
include hspec

/-- Then a page is sorted: the event, if there is one, comes first. -/
theorem AtMostOneFirst.sorted : Increasing Prod.fst page.updates := by
  rw [hspec.updates]
  refine pairwise_append.mpr ⟨?_, t.pairwise_lt_exOutlierUpdates _ _ _, fun u hu u' hu' => ?_⟩
  · have hone : ((t.backfilledUpdates instanceName lastId currentId).take limit).length ≤ 1 :=
      (length_take_le' _ _).trans h.one
    match (t.backfilledUpdates instanceName lastId currentId).take limit, hone with
    | [], _ => exact .nil
    | [u], _ => exact pairwise_singleton _ u
  · obtain ⟨hmem, hlow, hhigh⟩ := mem_exOutlierUpdates.mp hu'
    exact h.first u (mem_of_mem_take hu) u'
      (mem_exOutlierUpdates.mpr ⟨hmem, hlow, hhigh.trans hspec.upper_le⟩)

/-- And nothing on the page is above its token. -/
theorem AtMostOneFirst.below (hu : u ∈ page.updates) : u.1 ≤ page.token := by
  cases hlimited : page.limited with
  | false =>
    rw [(hspec.last hlimited).1]
    exact (mem_between.mp (hspec.mem hu)).2.2
  | true =>
    obtain ⟨front, v, hfront, htoken⟩ := hspec.more hlimited
    rw [htoken]
    exact le_getLast ((h.sorted hspec).imp le_of_lt) (by rw [hfront, getLast?_concat]) hu

/-- And the page has all rows up to its token. -/
theorem AtMostOneFirst.all (hlimit : 1 ≤ limit) {row : BackfillUpdate}
    (hrow : row ∈ between fst (t.backfillRows instanceName) lastId page.token) :
    row ∈ page.updates := by
  obtain ⟨hmem, hlow, hhigh⟩ := mem_between.mp hrow
  have htake := take_of_length_le (h.one.trans hlimit)
  rw [hspec.updates, htake]
  rcases mem_append.mp hmem with hmem | hmem
  · exact mem_append_left _ (mem_backfilledUpdates.mpr ⟨hmem, hlow, hhigh.trans hspec.token_le⟩)
  · refine mem_append_right _ (mem_exOutlierUpdates.mpr ⟨hmem, hlow, ?_⟩)
    by_cases hlen : limit ≤ (t.backfilledUpdates instanceName lastId currentId).length
    · -- the page stops at the one event there is
      obtain ⟨front, u, hfront, hupper⟩ := hspec.cut hlen
      rw [htake] at hfront
      have hu : u ∈ t.backfilledUpdates instanceName lastId currentId := hfront ▸ mem_append_cons_self
      have hnone : t.exOutlierUpdates instanceName lastId upperBound = [] := by
        refine eq_nil_iff_forall_not_mem.mpr fun u' hu' => ?_
        obtain ⟨hmem', hlow', hhigh'⟩ := mem_exOutlierUpdates.mp hu'
        have hlt := h.first u hu u' (mem_exOutlierUpdates.mpr ⟨hmem', hlow', hhigh'.trans hspec.upper_le⟩)
        omega
      cases hlimited : page.limited with
      | false => exact absurd (hspec.last hlimited).2 (by omega)
      | true =>
        obtain ⟨front', v, hfront', htoken⟩ := hspec.more hlimited
        rw [hspec.updates, htake, hnone, append_nil, hfront] at hfront'
        have hlast : u = v := singleton_inj.mp (append_inj_right' hfront' rfl)
        rw [hupper, hlast, ← htoken]
        exact hhigh
    · rw [hspec.whole (by omega)]
      exact hhigh.trans hspec.token_le

end
end

/-! ## All pages -/

theorem exists_backfillPages (t : EventTables) (instanceName : String) (hlt : lastId < currentId)
    (hlimit : 1 ≤ limit) :
    ∃ ps, pages (t.backfillPage instanceName currentId limit) ((currentId - lastId).toNat + 1) lastId =
        some ps ∧ Divide currentId lastId ps ∧
      ∀ position page, (position, page) ∈ ps → lastId ≤ position ∧
        ∃ upperBound, t.BackfillSpec instanceName position currentId limit upperBound page := by
  refine Util.exists_pages (fun position _ hI => ?_) hlt.le (le_refl lastId)
    (Nat.lt_succ_self _)
  obtain ⟨page, upperBound, hpage, hspec⟩ := t.backfillPage_spec instanceName position currentId hlimit
  refine ⟨page, hpage, ⟨hI, upperBound, hspec⟩, fun hlast => (hspec.last hlast).1, fun hmore => ?_⟩
  obtain ⟨hlow, hhigh⟩ := hspec.progress hmore
  exact ⟨hlow, hhigh, by omega⟩

/-- If all rows are read in order, none is below the first event: the first page begins with it, and what
is not above the token of the first page is on no other one. -/
theorem event_le_of_readsAll (hlt : lastId < currentId) (hlimit : 1 ≤ limit)
    (hreads : ReadsAll (fun u u' => u.1 ≤ u'.1) fst (t.backfillRows instanceName)
      (t.backfillPage instanceName currentId limit) lastId currentId)
    {events : List BackfillUpdate}
    (hevents : t.backfilledUpdates instanceName lastId currentId = u :: events)
    {row : BackfillUpdate}
    (hrow : row ∈ between fst (t.backfillRows instanceName) lastId currentId) : u.1 ≤ row.1 := by
  obtain ⟨ps, hps, hdivide, hspec⟩ := t.exists_backfillPages instanceName hlt hlimit
  obtain ⟨calls, ps', hps', hperm, hsorted⟩ := hreads
  obtain rfl : ps = ps' := pages_unique hps hps'
  obtain ⟨page, rest, _, rfl⟩ := head_of_pages hps
  obtain ⟨_, upperBound, hpage⟩ := hspec lastId page mem_cons_self
  obtain ⟨more, hmore⟩ := hpage.head hlimit hevents
  have hall : ∀ v ∈ page.updates, u.1 ≤ v.1 := by
    have hpair : Ascending Prod.fst page.updates := hsorted.sublist (sublist_append_left _ _)
    rw [hmore] at hpair ⊢
    exact forall_mem_cons.mpr ⟨le_rfl, (pairwise_cons.mp hpair).1⟩
  have htoken : u.1 ≤ page.token := by
    cases hlimited : page.limited with
    | false =>
      rw [(hpage.last hlimited).1]
      exact (mem_between.mp (hpage.mem (hmore ▸ mem_cons_self))).2.2
    | true =>
      obtain ⟨front, v, hfront, hv⟩ := hpage.more hlimited
      rw [hv]
      exact hall v (hfront ▸ mem_append_cons_self)
  have hlow : ∀ p ∈ (lastId, page) :: rest, ∀ v ∈ p.2.updates, p.1 < v.1 := by
    intro p hp v hv
    obtain ⟨_, _, hspec'⟩ := hspec p.1 p.2 hp
    exact (mem_between.mp (hspec'.mem hv)).2.1
  by_contra hbelow
  exact hbelow (hall row (hdivide.mem_updates_head hlow (hperm.mem_iff.mpr hrow) (by omega)))

/-- If no row is below the first event, there is no other event. -/
theorem atMostOneFirst_of_le
    (h : ∀ u events, t.backfilledUpdates instanceName lastId currentId = u :: events →
      ∀ row ∈ between fst (t.backfillRows instanceName) lastId currentId, u.1 ≤ row.1) :
    t.AtMostOneFirst instanceName lastId currentId := by
  have hevents := t.pairwise_gt_backfilledUpdates instanceName lastId currentId
  have hupdates := t.backfill_updates_perm instanceName lastId currentId
  have hnodup := t.nodup_updates instanceName lastId currentId
  rw [map_append] at hnodup
  cases hlist : t.backfilledUpdates instanceName lastId currentId with
  | nil => exact ⟨by rw [hlist]; exact Nat.zero_le _, fun u hu => absurd (hlist ▸ hu) not_mem_nil⟩
  | cons u events =>
    have hnone : events = [] := by
      refine eq_nil_iff_forall_not_mem.mpr fun u' hu' => ?_
      have hle := h u events hlist u'
        (hupdates.subset (mem_append_left _ (hlist ▸ mem_cons_of_mem _ hu')))
      rw [hlist] at hevents
      have hlt := (pairwise_cons.mp hevents).1 u' hu'
      omega
    rw [hnone] at hlist
    refine ⟨by rw [hlist]; exact le_rfl, fun v hv u' hu' => ?_⟩
    have hne := (nodup_append.mp hnodup).2.2 _ (mem_map_of_mem hv) _ (mem_map_of_mem hu')
    rw [hlist, mem_singleton] at hv
    have hle := h u [] hlist u' (hupdates.subset (mem_append_right _ hu'))
    rw [← hv] at hle
    omega

/-- **Reading page by page gives all rows in order exactly if at most one event has been backfilled, and
no other row is below it.** -/
theorem backfill_readsAll_iff (t : EventTables) (instanceName : String) (lastId currentId : ℤ)
    (limit : ℕ) (hlt : lastId < currentId) (hlimit : 1 ≤ limit) :
    ReadsAll (fun u u' => u.1 ≤ u'.1) fst (t.backfillRows instanceName)
        (t.backfillPage instanceName currentId limit) lastId currentId ↔
      t.AtMostOneFirst instanceName lastId currentId := by
  constructor
  · intro hreads
    exact atMostOneFirst_of_le fun u events hevents row hrow =>
      event_le_of_readsAll hlt hlimit hreads hevents hrow
  · intro hone
    obtain ⟨ps, hps, hdivide, hspec⟩ := t.exists_backfillPages instanceName hlt hlimit
    refine ⟨_, ps, hps, ?_, ?_⟩
    · refine hdivide.perm fun p hp => ?_
      obtain ⟨hle, upperBound, hpage⟩ := hspec p.1 p.2 hp
      have hone := hone.mono hle
      refine (perm_ext_iff_of_nodup ?_ ?_).mpr fun row => ⟨fun hrow => ?_, hone.all hpage hlimit⟩
      · exact nodup_of_pairwise_lt (hone.sorted hpage)
      · exact ((t.nodup_backfillRows instanceName).of_map _).filter _
      · obtain ⟨hmem, hlow, _⟩ := mem_between.mp (hpage.mem hrow)
        exact mem_between.mpr ⟨hmem, hlow, hone.below hpage hrow⟩
    · refine hdivide.pairwise (fun _ _ hlt => hlt.le) (fun p hp => ?_) fun p hp u hu => ?_
      · obtain ⟨hle, upperBound, hpage⟩ := hspec p.1 p.2 hp
        exact ((hone.mono hle).sorted hpage).imp fun h => h.le
      · obtain ⟨hle, upperBound, hpage⟩ := hspec p.1 p.2 hp
        exact ⟨(mem_between.mp (hpage.mem hu)).2.1, (hone.mono hle).below hpage hu⟩

/-! ## Two events

The events with the tokens 1 and 2 have been backfilled. -/

def twoBackfilled : EventTables where
  events := [⟨"$one", -1, "!room", "m.room.message", some "master", false⟩,
    ⟨"$two", -2, "!room", "m.room.message", some "master", false⟩]
  exOutlierStream := []
  redactions := ∅
  stateEvents := ∅
  eventRelations := ∅
  roomMemberships := ∅
  rejections := ∅
  eventIds := by decide
  streamIds := by decide

/-- With a limit of 1 the first event is never read: the page has the second one, and the reader goes on
from there.  With a limit of 100 both are read, the second one first. -/
theorem twoBackfilled_not_readsAll :
    (pages (twoBackfilled.backfillPage "master" 2 1) 3 0).map (fun ps => (allUpdates ps).map fst) =
        some [2] ∧
      (pages (twoBackfilled.backfillPage "master" 2 100) 3 0).map
        (fun ps => (allUpdates ps).map fst) = some [2, 1] ∧
      ¬ReadsAll (fun u u' => u.1 ≤ u'.1) fst (twoBackfilled.backfillRows "master")
        (twoBackfilled.backfillPage "master" 2 1) 0 2 := by
  have hread : (pages (twoBackfilled.backfillPage "master" 2 1) 3 0).map
      (fun ps => (allUpdates ps).map fst) = some [2] := by decide +kernel
  refine ⟨hread, by decide +kernel, fun hreads => ?_⟩
  obtain ⟨calls, ps, hps, hperm, _⟩ := hreads
  obtain ⟨ps', hps', htokens⟩ := Option.map_eq_some_iff.mp hread
  have hlength := (hperm.map fst).length_eq
  rw [pages_unique hps hps', htokens] at hlength
  exact absurd hlength (by decide +kernel)

/-- Besides these, an event that was an outlier has the token 3. -/
def exOutlierAfter : EventTables := { twoBackfilled with
  events := twoBackfilled.events ++ [⟨"$three", 1, "!room", "m.room.message", some "master", false⟩]
  exOutlierStream := [⟨-3, "$three", some "master"⟩]
  eventIds := by decide
  streamIds := by decide }

/-- Between the positions 1 and 3 there is one event, and a row after it; each is on a page of its own. -/
theorem exOutlierAfter_readsAll :
    ReadsAll (fun u u' => u.1 ≤ u'.1) fst (exOutlierAfter.backfillRows "master")
      (exOutlierAfter.backfillPage "master" 3 1) 1 3 := by
  refine (exOutlierAfter.backfill_readsAll_iff "master" 1 3 1 (by decide) (by decide)).mpr ⟨?_, ?_⟩
  · decide +kernel
  · decide +kernel

end EventTables
end Synapse.Storage
