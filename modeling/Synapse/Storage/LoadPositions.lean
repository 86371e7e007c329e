import Synapse.Storage.IdGenerators
import Synapse.Util.Loops
import Synapse.Util.Select

/-!
# Loading the stream positions at start-up

`MultiWriterIdGenerator._load_current_ids` builds the positions of a stream
from two sources: the table `stream_positions`, which holds one position per
writer, and the rows of the stream's own tables, which may be ahead of it. The
rows at or beyond the smallest stored position are read, sorted by their ID in
the database, and walked in that order; each row of this instance *assigns* the
position of this instance.

The database ID of a negative stream falls as the stream advances, while the
sort is by the database ID in both cases. So the row that is walked last is the
newest one only in a positive stream; and in either direction it may lie before
the stored position. `loadCurrentIds_survives_iff` says exactly when nothing is
lost by that, and when the token cannot overtake a write of another writer.
-/

namespace Synapse.Storage

open Synapse.Util MultiWriterIdGenerator List

variable {ι : Type}

/-- A row of one of the stream's tables. `instance_name` may be `NULL`. -/
structure StreamRow (ι : Type) where
  instanceName : Option ι
  streamId : ℤ
deriving DecidableEq

/-- What the load reads: `stream_positions`, with its primary key, and the rows
of the tables given to `__init__`, in the order in which they are returned. -/
structure StreamTables (ι : Type) where
  streamPositions : Dict (String × ι) ℤ
  tables : List (List (StreamRow ι))

namespace StreamTables

/-- Some table holds a row with this ID. -/
def Committed (db : StreamTables ι) (i : ℤ) : Prop := ∃ t ∈ db.tables, ∃ r ∈ t, r.streamId = i

end StreamTables

/-- The arguments of `__init__` that the load uses. -/
structure StreamArgs (ι : Type) where
  streamName : String
  instanceName : ι
  writers : List ι
  positive : Bool

namespace StreamArgs

variable (a : StreamArgs ι)

/-- `_return_factor`, as a field of the generator. -/
def factor : ℤ := returnFactor a.positive

theorem factor_mul_factor (i : ℤ) : a.factor * (a.factor * i) = i := by
  unfold factor returnFactor
  split <;> omega

/-- `i` is at or beyond `j` in the stream's direction. -/
def AtOrBeyond (i j : ℤ) : Prop := a.factor * j ≤ a.factor * i

/-- `i` is before `j` in the stream's direction. -/
def Before (i j : ℤ) : Prop := a.factor * i < a.factor * j

instance (i j : ℤ) : Decidable (a.AtOrBeyond i j) := inferInstanceAs (Decidable (_ ≤ _))

instance (i j : ℤ) : Decidable (a.Before i j) := inferInstanceAs (Decidable (_ < _))

/-! ## The load -/

/-- `SELECT GREATEST(COALESCE(agg(id), 1), 1)` over every table, starting at 1.
`-MIN` is the maximum of the negated IDs. -/
def maxStreamId (tables : List (List (StreamRow ι))) : ℤ := tables.foldl
    (fun m t => max m (max ((t.map fun r => a.factor * r.streamId).max?.getD 1) 1)) 1

/-- The rows at or beyond `min_stream_id`, of all tables, sorted by the ID that
the database holds. -/
def fetchRows (minStreamId : ℤ) (tables : List (List (StreamRow ι))) : List (StreamRow ι) :=
  (tables.flatMap fun t => t.filter fun r =>
    if a.positive then minStreamId * a.factor ≤ r.streamId
    else r.streamId ≤ minStreamId * a.factor).insertionSort fun r r' => r.streamId ≤ r'.streamId

variable [DecidableEq ι]

/-- The `DELETE` of the entries of instances that are no longer writers. -/
def deleteStale (t : Dict (String × ι) ℤ) : Dict (String × ι) ℤ :=
  if a.writers = [] then t
  else t.filterItems fun k _ => !decide (k.1 = a.streamName ∧ k.2 ∉ a.writers)

variable (db : StreamTables ι) (g : MultiWriterIdGenerator ι)

/-- `_current_positions` as first read from `stream_positions`. -/
def storedPositions : Dict ι ℤ :=
  if a.writers = [] then ∅
  else Dict.update ∅ ((a.deleteStale db.streamPositions).items.filterMap fun x =>
    if x.1.1 = a.streamName ∧ x.1.2 ∈ a.writers then some (x.1.2, x.2 * a.factor) else none)

/-- One round of the loop over the rows. -/
def loadRow (r : StreamRow ι) : MultiWriterIdGenerator ι :=
  let streamId := a.factor * r.streamId
  let g := addPersistedPosition a.instanceName g streamId
  if r.instanceName = some a.instanceName then
    { g with currentPositions := g.currentPositions.insert a.instanceName streamId }
  else g

/-- The `setdefault` loop that gives every writer a position. -/
def defaultPositions : MultiWriterIdGenerator ι :=
  { g with
    currentPositions := a.writers.foldl
      (fun d w => if w ∈ d then d else d.insert w g.persistedUptoPosition) g.currentPositions }

/-- `min_stream_id`. -/
def minStreamId : Option ℤ := ((a.storedPositions db).items.map Prod.snd).min?

/-- The rows that the load walks; none when there is no stored position, where
only the maximum of the tables is read. -/
def loadedRows : List (StreamRow ι) :=
  match a.minStreamId db with
  | none => []
  | some m => a.fetchRows m db.tables

/-- Where `_persisted_upto_position` starts. -/
def startPosition : ℤ := (a.minStreamId db).getD (a.maxStreamId db.tables)

/-- What `__init__` has set when the loop over the rows starts. -/
def blank : MultiWriterIdGenerator ι where
  currentPositions := a.storedPositions db
  unfinishedIds := []
  inFlightFetches := []
  finishedIds := []
  persistedUptoPosition := a.startPosition db
  knownPersistedPositions := []
  maxSeenAllocatedStreamId := 1
  maxPositionOfLocalInstance := 1

/-- `_load_current_ids`. -/
def loadCurrentIds : MultiWriterIdGenerator ι :=
  a.defaultPositions ((a.loadedRows db).foldl a.loadRow (a.blank db))

/-- `__init__`: the load, the maxima that are set from it, and the position
that an instance of a stream without explicit writers starts with. -/
def create : MultiWriterIdGenerator ι :=
  let g := a.loadCurrentIds db
  let g := ofLoaded g.currentPositions g.persistedUptoPosition g.knownPersistedPositions
  if a.writers = [] then
    { g with currentPositions := g.currentPositions.insert a.instanceName g.persistedUptoPosition }
  else g

/-- `get_minimal_local_current_token`: the position of this instance. -/
def getMinimalLocalCurrentToken : ℤ :=
  a.factor * g.currentPositions.getD a.instanceName g.persistedUptoPosition

/-! ## What is loaded for whom -/

variable {w : ι} {t : Dict (String × ι) ℤ}

theorem lookup_deleteStale (hw : w ∈ a.writers) :
    (a.deleteStale t).lookup (a.streamName, w) = t.lookup (a.streamName, w) := by
  unfold deleteStale
  split
  · rfl
  · rw [Dict.lookup_filterItems]
    cases t.lookup (a.streamName, w) with
    | none => rfl
    | some p => simp [Option.filter, hw]

/-- After the deletion only writers have an entry. -/
theorem lookup_deleteStale_of_notMem (hwriters : a.writers ≠ [])
    (hw : w ∉ a.writers) : (a.deleteStale t).lookup (a.streamName, w) = none := by
  unfold deleteStale
  rw [if_neg hwriters, Dict.lookup_filterItems]
  cases t.lookup (a.streamName, w) with
  | none => rfl
  | some p => simp [Option.filter, hw]

variable {db}

theorem lookup_storedPositions {q : ℤ} : (a.storedPositions db).lookup w = some q ↔ w ∈ a.writers ∧
      ∃ p, db.streamPositions.lookup (a.streamName, w) = some p ∧ p * a.factor = q := by
  have hmem : ∀ w q, (w, q) ∈ (a.deleteStale db.streamPositions).items.filterMap (fun x =>
      if x.1.1 = a.streamName ∧ x.1.2 ∈ a.writers then some (x.1.2, x.2 * a.factor) else none) ↔
        w ∈ a.writers ∧ ∃ p, db.streamPositions.lookup (a.streamName, w) = some p ∧ p * a.factor = q := by
    intro w q
    rw [mem_filterMap]
    constructor
    · rintro ⟨⟨⟨s, w'⟩, p⟩, hitem, hx⟩
      obtain ⟨⟨rfl, hw⟩, hsome⟩ := Option.ite_none_right_eq_some.mp hx
      obtain ⟨rfl, rfl⟩ := Prod.mk.inj (Option.some.inj hsome)
      rw [Dict.mem_items, lookup_deleteStale a hw] at hitem
      exact ⟨hw, p, hitem, rfl⟩
    · rintro ⟨hw, p, hp, rfl⟩
      refine ⟨((a.streamName, w), p), ?_, if_pos ⟨rfl, hw⟩⟩
      rw [Dict.mem_items, lookup_deleteStale a hw]
      exact hp
  unfold storedPositions
  split
  next hwriters =>
    rw [hwriters]
    exact ⟨fun h => absurd h (by simp), fun h => absurd h.1 not_mem_nil⟩
  · rw [Dict.lookup_update_of_functional, hmem]
    · exact or_iff_left fun h => nomatch h.2
    · intro k v v' hv hv'
      obtain ⟨_, p, hp, rfl⟩ := (hmem k v).mp hv
      obtain ⟨_, p', hp', rfl⟩ := (hmem k v').mp hv'
      rw [Option.some.inj (hp.symm.trans hp')]

/-- Without a smallest stored position there is no stored position. -/
theorem storedPositions_of_minStreamId (h : a.minStreamId db = none) :
    (a.storedPositions db).lookup w = none := by
  unfold minStreamId at h
  rw [min?_eq_none_iff, map_eq_nil_iff] at h
  cases hlookup : (a.storedPositions db).lookup w with
  | none => rfl
  | some q => exact absurd (h ▸ Dict.mem_items.mpr hlookup) not_mem_nil

theorem minStreamId_le {m : ℤ} (h : a.minStreamId db = some m) {q : ℤ}
    (hq : (a.storedPositions db).lookup w = some q) : m ≤ q :=
  (min?_eq_some_iff.mp h).2 q (mem_map.mpr ⟨(w, q), Dict.mem_items.mpr hq, rfl⟩)

/-! ## The loop over the rows -/

theorem loadRow_positions (r : StreamRow ι) : (a.loadRow g r).currentPositions =
      if r.instanceName = some a.instanceName then
        g.currentPositions.insert a.instanceName (a.factor * r.streamId)
      else g.currentPositions := by
  unfold loadRow
  split <;> rfl

theorem loadRow_persisted (r : StreamRow ι) : (a.loadRow g r).persistedUptoPosition =
        (addPersistedPosition a.instanceName g (a.factor * r.streamId)).persistedUptoPosition ∧
      (a.loadRow g r).knownPersistedPositions =
        (addPersistedPosition a.instanceName g (a.factor * r.streamId)).knownPersistedPositions := by
  unfold loadRow
  split <;> exact ⟨rfl, rfl⟩

/-- The loop leaves the position of every other writer as it was stored. -/
theorem lookup_foldl_loadRow_of_ne (hw : w ≠ a.instanceName) :
    ∀ (rows : List (StreamRow ι)) (g : MultiWriterIdGenerator ι),
      (rows.foldl a.loadRow g).currentPositions.lookup w = g.currentPositions.lookup w
  | [], _ => rfl
  | r :: rows, g => by
    rw [foldl_cons, lookup_foldl_loadRow_of_ne hw rows, loadRow_positions]
    split
    · exact AList.lookup_insert_ne hw
    · rfl

/-- The rows that this instance wrote. -/
def own (rows : List (StreamRow ι)) : List (StreamRow ι) :=
  rows.filter fun r => r.instanceName = some a.instanceName

variable {r : StreamRow ι}

theorem mem_own {rows : List (StreamRow ι)} :
    r ∈ a.own rows ↔ r ∈ rows ∧ r.instanceName = some a.instanceName := by
  unfold own
  rw [mem_filter, decide_eq_true_iff]

/-- The loop leaves this instance at its last row, or where it was stored if it
has none. -/
theorem lookup_foldl_loadRow_self :
    ∀ (rows : List (StreamRow ι)) (g : MultiWriterIdGenerator ι),
      (rows.foldl a.loadRow g).currentPositions.lookup a.instanceName =
        ((a.own rows).getLast?.map fun r => a.factor * r.streamId).or
          (g.currentPositions.lookup a.instanceName)
  | [], _ => rfl
  | r :: rows, g => by
    rw [foldl_cons, lookup_foldl_loadRow_self rows, loadRow_positions]
    unfold own
    rw [filter_cons]
    by_cases hr : r.instanceName = some a.instanceName
    · rw [if_pos hr, if_pos (decide_eq_true hr), AList.lookup_insert, getLast?_cons]
      cases (rows.filter fun r => r.instanceName = some a.instanceName).getLast? <;> rfl
    · rw [if_neg hr, if_neg (by simpa using hr)]

/-- Stepping over known positions stops before an ID that is not known. -/
theorem skipForward_lt {u : ℤ} : ∀ (known : List ℤ) {pos : ℤ}, pos < u → u ∉ known →
    (skipForward pos known).1 < u ∧ u ∉ (skipForward pos known).2
  | [], _, hpos, hu => ⟨hpos, hu⟩
  | x :: xs, pos, hpos, hu => by
    obtain ⟨hx, hxs⟩ := not_or.mp (fun h => hu (mem_cons.mpr h))
    unfold skipForward
    split
    · exact skipForward_lt xs hpos hxs
    · split
      next hnext => exact skipForward_lt xs (by omega) hxs
      · exact ⟨hpos, hu⟩

/-- While another writer's position is before `u`, and no row has the ID `u`,
the loop does not reach `u`. -/
theorem foldl_loadRow_lt (hw : w ≠ a.instanceName) {p u : ℤ} (hpu : p < u) :
    ∀ (rows : List (StreamRow ι)) {g : MultiWriterIdGenerator ι},
      (∀ r ∈ rows, a.factor * r.streamId ≠ u) → g.currentPositions.lookup w = some p →
      g.persistedUptoPosition < u → u ∉ g.knownPersistedPositions →
      (rows.foldl a.loadRow g).persistedUptoPosition < u
  | [], _, _, _, hlt, _ => hlt
  | r :: rows, g, hrows, hp, hlt, hknown => by
    have hmin : max (g.minCurr a.instanceName) g.persistedUptoPosition < u :=
      max_lt (lt_of_le_of_lt (minCurr_le_other hw hp) hpu) hlt
    have hnew : u ∉ g.knownPersistedPositions.orderedInsert (· ≤ ·) (a.factor * r.streamId) := by
      intro hmem
      rcases (mem_orderedInsert _).mp hmem with heq | hmem
      · exact hrows r mem_cons_self heq.symm
      · exact hknown hmem
    obtain ⟨hpos, hrest⟩ := skipForward_lt _ hmin hnew
    refine foldl_loadRow_lt hw hpu rows (fun r hr => hrows r (mem_cons_of_mem _ hr)) ?_ ?_ ?_
    · rw [loadRow_positions]
      split
      · rw [AList.lookup_insert_ne hw, hp]
      · exact hp
    · rw [(a.loadRow_persisted g r).1]
      exact hpos
    · rw [(a.loadRow_persisted g r).2]
      exact hrest

/-- `min_curr` of each round of the loop. -/
def minCurrs (a : StreamArgs ι) : MultiWriterIdGenerator ι → List (StreamRow ι) → List ℤ
  | _, [] => []
  | g, r :: rows => g.minCurr a.instanceName :: a.minCurrs (a.loadRow g r) rows

/-- Stepping over known positions passes nothing else. -/
theorem skipForward_mem {x : ℤ} : ∀ (known : List ℤ) (pos : ℤ), pos ≤ (skipForward pos known).1 ∧
    (∀ y ∈ (skipForward pos known).2, y ∈ known) ∧ (pos < x → x ≤ (skipForward pos known).1 → x ∈ known)
  | [], _ => ⟨le_rfl, fun _ => id, fun hlt hle => absurd hlt (not_lt.mpr hle)⟩
  | y :: ys, pos => by
    unfold skipForward
    split
    · obtain ⟨hle, hknown, hx⟩ := skipForward_mem (x := x) ys pos
      exact ⟨hle, fun z hz => mem_cons_of_mem y (hknown z hz), fun hlt h => mem_cons_of_mem y (hx hlt h)⟩
    · split
      next heq =>
        obtain ⟨hle, hknown, hx⟩ := skipForward_mem (x := x) ys (pos + 1)
        refine ⟨by omega, fun z hz => mem_cons_of_mem y (hknown z hz), fun hlt h => ?_⟩
        by_cases hxy : x = pos + 1
        · exact mem_cons.mpr (.inl (hxy.trans heq.symm))
        · exact mem_cons_of_mem y (hx (by omega) h)
      · exact ⟨le_rfl, fun _ => id, fun hlt hle => absurd hlt (not_lt.mpr hle)⟩

/-- The loop reaches every `min_curr`, and beyond the greatest it passes IDs of rows only. -/
theorem foldl_loadRow_upto :
    ∀ (rows : List (StreamRow ι)) (g : MultiWriterIdGenerator ι),
      g.persistedUptoPosition ≤ (rows.foldl a.loadRow g).persistedUptoPosition ∧
      (∀ u ∈ a.minCurrs g rows, u ≤ (rows.foldl a.loadRow g).persistedUptoPosition) ∧
      ∀ x, g.persistedUptoPosition < x → x ≤ (rows.foldl a.loadRow g).persistedUptoPosition →
        x ∈ g.knownPersistedPositions ∨ (∃ r ∈ rows, a.factor * r.streamId = x) ∨
          ∃ u ∈ a.minCurrs g rows, x ≤ u
  | [], _ => ⟨le_rfl, nofun, fun _ hlt hle => absurd hlt (not_lt.mpr hle)⟩
  | r :: rows, g => by
    obtain ⟨hle, hcurrs, hpassed⟩ := foldl_loadRow_upto rows (a.loadRow g r)
    obtain ⟨hpersisted, hknown⟩ := a.loadRow_persisted g r
    have hskip : ∀ x, max (g.minCurr a.instanceName) g.persistedUptoPosition ≤
        (a.loadRow g r).persistedUptoPosition ∧ (∀ y ∈ (a.loadRow g r).knownPersistedPositions,
          y = a.factor * r.streamId ∨ y ∈ g.knownPersistedPositions) ∧
        (max (g.minCurr a.instanceName) g.persistedUptoPosition < x →
          x ≤ (a.loadRow g r).persistedUptoPosition →
            x = a.factor * r.streamId ∨ x ∈ g.knownPersistedPositions) := by
      intro x
      rw [hpersisted, hknown]
      obtain ⟨h₁, h₂, h₃⟩ := skipForward_mem (x := x)
        (g.knownPersistedPositions.orderedInsert (· ≤ ·) (a.factor * r.streamId))
        (max (g.minCurr a.instanceName) g.persistedUptoPosition)
      exact ⟨h₁, fun y hy => (mem_orderedInsert _).mp (h₂ y hy),
        fun hlt h => (mem_orderedInsert _).mp (h₃ hlt h)⟩
    obtain ⟨hmax, hmem, _⟩ := hskip 0
    refine ⟨(le_max_right _ _).trans (hmax.trans hle), fun u hu => ?_, fun x hlt hx => ?_⟩
    · rcases mem_cons.mp hu with rfl | hu
      · exact (le_max_left _ _).trans (hmax.trans hle)
      · exact hcurrs u hu
    · have hrow : x = a.factor * r.streamId ∨ x ∈ g.knownPersistedPositions →
          x ∈ g.knownPersistedPositions ∨ (∃ r' ∈ r :: rows, a.factor * r'.streamId = x) ∨
            ∃ u ∈ a.minCurrs g (r :: rows), x ≤ u := by
        rintro (heq | hx)
        · exact .inr (.inl ⟨r, mem_cons_self, heq.symm⟩)
        · exact .inl hx
      -- `x` is passed in this round, by `min_curr` or over known positions, or in a later one
      by_cases hround : x ≤ (a.loadRow g r).persistedUptoPosition
      · by_cases hcurr : x ≤ g.minCurr a.instanceName
        · exact .inr (.inr ⟨_, mem_cons_self, hcurr⟩)
        · exact hrow ((hskip x).2.2 (max_lt (not_le.mp hcurr) hlt) hround)
      · rcases hpassed x (not_le.mp hround) hx with hx | ⟨r', hr', heq⟩ | ⟨u, hu, hxu⟩
        · exact hrow (hmem x hx)
        · exact .inr (.inl ⟨r', mem_cons_of_mem r hr', heq⟩)
        · exact .inr (.inr ⟨u, mem_cons_of_mem _ hu, hxu⟩)

/-- Where `min_curr` is in each round: the smallest position of another writer, or, if no other has one, the
position of this instance, which its own rows before the last row move. -/
theorem mem_minCurrs {u : ℤ} :
    ∀ (rows : List (StreamRow ι)) (g : MultiWriterIdGenerator ι), ¬ g.Busy →
      (u ∈ a.minCurrs g rows ↔ rows ≠ [] ∧
        match (g.currentPositions.valuesExcept a.instanceName).min? with
        | some position => u = position
        | none => u = g.currentPositions.getD a.instanceName 0 ∨
            ∃ r ∈ a.own rows.dropLast, a.factor * r.streamId = u)
  | [], _, _ => by simp [minCurrs]
  | r :: rows, g, hbusy => by
    have hothers : ((a.loadRow g r).currentPositions.valuesExcept a.instanceName).min? =
        (g.currentPositions.valuesExcept a.instanceName).min? := by
      have hmem : ∀ p, p ∈ (a.loadRow g r).currentPositions.valuesExcept a.instanceName ↔
          p ∈ g.currentPositions.valuesExcept a.instanceName := by
        intro p
        rw [Dict.mem_valuesExcept, Dict.mem_valuesExcept]
        exact exists_congr fun w => and_congr_right fun hw => by
          rw [show (a.loadRow g r).currentPositions.lookup w = _ from a.lookup_foldl_loadRow_of_ne hw [r] g]
      refine Option.ext fun position => ?_
      simp only [min?_eq_some_iff, hmem]
    have hcurr : g.minCurr a.instanceName = (g.currentPositions.valuesExcept a.instanceName).min?.getD
        (g.currentPositions.getD a.instanceName 0) := if_neg fun h => hbusy h.2
    have hbusy' : ¬ (a.loadRow g r).Busy := by
      unfold loadRow
      split <;> exact hbusy
    unfold minCurrs
    rw [mem_cons, hcurr, mem_minCurrs rows (a.loadRow g r) hbusy', hothers]
    cases hmin : (g.currentPositions.valuesExcept a.instanceName).min? with
    | some position => simp
    | none =>
      -- the row is the position of the next round if it is our own, and there is a next round
      cases rows with
      | nil => simp [own]
      | cons r' rows =>
        rw [dropLast_cons_cons]
        unfold own
        rw [filter_cons, loadRow_positions]
        by_cases hown : r.instanceName = some a.instanceName
        · simp [hown, Dict.getD_insert, eq_comm]
        · simp [hown]

/-! ## The loaded positions -/

theorem lookup_defaultPositions (w : ι) : (a.defaultPositions g).currentPositions.lookup w =
      (g.currentPositions.lookup w).or
        (if w ∈ a.writers then some g.persistedUptoPosition else none) := by
  unfold defaultPositions
  generalize g.currentPositions = d
  generalize a.writers = writers
  induction writers generalizing d with
  | nil => simp
  | cons v writers ih =>
    rw [foldl_cons, ih]
    by_cases hv : v ∈ d
    · rw [if_pos hv]
      by_cases hwv : w = v
      · subst hwv
        obtain ⟨q, hq⟩ := Dict.exists_lookup hv
        rw [hq]
        rfl
      · simp only [mem_cons, hwv, false_or]
    · rw [if_neg hv]
      by_cases hwv : w = v
      · subst hwv
        rw [AList.lookup_insert, AList.lookup_eq_none.mpr hv, if_pos mem_cons_self]
        rfl
      · rw [AList.lookup_insert_ne hwv]
        simp only [mem_cons, hwv, false_or]

/-- Every other writer keeps the position stored for it. -/
theorem lookup_loadCurrentIds_of_ne (hne : w ≠ a.instanceName)
    (hw : w ∈ a.writers) {p : ℤ} (hp : db.streamPositions.lookup (a.streamName, w) = some p) :
    (a.loadCurrentIds db).currentPositions.lookup w = some (p * a.factor) := by
  unfold loadCurrentIds
  rw [lookup_defaultPositions, lookup_foldl_loadRow_of_ne a hne]
  show ((a.storedPositions db).lookup w).or _ = _
  rw [(lookup_storedPositions a).mpr ⟨hw, p, hp, rfl⟩]
  rfl

/-- The position of this instance: its last row, or what is stored for it, or
the position everything is persisted up to. -/
theorem getMinimalLocalCurrentToken_loadCurrentIds (db : StreamTables ι) :
    a.getMinimalLocalCurrentToken (a.loadCurrentIds db) =
      a.factor * (((a.own (a.loadedRows db)).getLast?.map fun r => a.factor * r.streamId).or
        ((a.storedPositions db).lookup a.instanceName)).getD
          (a.loadCurrentIds db).persistedUptoPosition := by
  unfold getMinimalLocalCurrentToken Dict.getD
  congr 1
  rw [show (a.loadCurrentIds db).currentPositions.lookup a.instanceName = _ from
    lookup_defaultPositions a _ _, lookup_foldl_loadRow_self]
  show (Option.or (Option.or _ ((a.storedPositions db).lookup a.instanceName)) _).getD _ = _
  generalize Option.or _ ((a.storedPositions db).lookup a.instanceName) = o
  cases o with
  | some q => rfl
  | none =>
    split <;> rfl

theorem pairwise_loadedRows (db : StreamTables ι) :
    Ascending StreamRow.streamId (a.loadedRows db) := by
  unfold loadedRows
  split
  · exact List.Pairwise.nil
  · exact pairwise_insertionSort _ _

/-- The last row of this instance is the one with the greatest database ID. -/
theorem le_getLast_own {last r : StreamRow ι}
    (hlast : (a.own (a.loadedRows db)).getLast? = some last) (hr : r ∈ a.own (a.loadedRows db)) :
    r.streamId ≤ last.streamId := le_getLast ((a.pairwise_loadedRows db).filter _) hlast hr

/-- A row of this instance was loaded: the instance is where the last one put it. -/
theorem exists_last_own (hr : r ∈ a.own (a.loadedRows db)) :
    ∃ last ∈ a.own (a.loadedRows db), (∀ r' ∈ a.own (a.loadedRows db), r'.streamId ≤ last.streamId) ∧
      a.getMinimalLocalCurrentToken (a.loadCurrentIds db) = last.streamId := by
  cases hlast : (a.own (a.loadedRows db)).getLast? with
  | none =>
    rw [getLast?_eq_none_iff] at hlast
    rw [hlast] at hr
    exact nomatch hr
  | some last =>
    refine ⟨last, mem_of_getLast? hlast, fun r' hr' => a.le_getLast_own hlast hr', ?_⟩
    rw [getMinimalLocalCurrentToken_loadCurrentIds, hlast]
    exact a.factor_mul_factor last.streamId

/-- Without explicit writers the position is the maximum of the tables. -/
theorem getMinimalLocalCurrentToken_of_no_writers (h : a.writers = []) :
    a.getMinimalLocalCurrentToken (a.loadCurrentIds db) = a.factor * a.maxStreamId db.tables := by
  have hmin : a.minStreamId db = none := by
    unfold minStreamId storedPositions
    rw [if_pos h]
    rfl
  have hrows : a.loadedRows db = [] := by
    unfold loadedRows
    rw [hmin]
  rw [getMinimalLocalCurrentToken_loadCurrentIds, a.storedPositions_of_minStreamId hmin, hrows]
  unfold loadCurrentIds blank startPosition
  rw [hrows, hmin]
  rfl

/-! ## Surviving a restart -/

/-- IDs that other configured writers have allocated and not committed: no row
has them, and each is beyond the position stored for its writer. "The first
generated stream ID will be 2". -/
def InFlight (db : StreamTables ι) (ids : List (ι × ℤ)) : Prop :=
  ∀ x ∈ ids, x.1 ∈ a.writers ∧ x.1 ≠ a.instanceName ∧ 2 ≤ a.factor * x.2 ∧ ¬ db.Committed x.2 ∧
    ∀ p, db.streamPositions.lookup (a.streamName, x.1) = some p → a.Before p x.2

/-- No position is lost by the load, and the token is safe. -/
structure Survives (db : StreamTables ι) : Prop where
  stored : ∀ p, (a.deleteStale db.streamPositions).lookup (a.streamName, a.instanceName) = some p →
    a.AtOrBeyond (a.getMinimalLocalCurrentToken (a.loadCurrentIds db)) p
  rows : ∀ r ∈ a.loadedRows db, r.instanceName = some a.instanceName →
    a.AtOrBeyond (a.getMinimalLocalCurrentToken (a.loadCurrentIds db)) r.streamId
  others : ∀ w ∈ a.writers, w ≠ a.instanceName →
    ∀ p, db.streamPositions.lookup (a.streamName, w) = some p →
      ∃ q, (a.loadCurrentIds db).currentPositions.lookup w = some q ∧ a.AtOrBeyond (a.factor * q) p
  inFlight : ∀ ids, a.InFlight db ids → ∀ x ∈ ids,
    a.Before (getCurrentToken a.positive (a.loadCurrentIds db)) x.2

/-- Up to here the load looks for no missing ID: the smallest stored position, or without one the maximum of
the tables; and if rows are loaded, the smallest position stored for another writer, or without one the own
stored position and the own rows before the last row. -/
def Trusted (db : StreamTables ι) (u : ℤ) : Prop :=
  u = a.startPosition db ∨ a.loadedRows db ≠ [] ∧
    match ((a.storedPositions db).valuesExcept a.instanceName).min? with
    | some position => u = position
    | none => u = (a.storedPositions db).getD a.instanceName 0 ∨
        ∃ r ∈ a.own (a.loadedRows db).dropLast, a.factor * r.streamId = u

/-- What has to hold of the tables for it. -/
structure Restartable (db : StreamTables ι) : Prop where
  /-- The loaded row of this instance with the greatest database ID is at or
  beyond its other rows and its stored position. -/
  last_row : ∀ last ∈ a.own (a.loadedRows db),
    (∀ r ∈ a.own (a.loadedRows db), r.streamId ≤ last.streamId) →
      (∀ r ∈ a.own (a.loadedRows db), a.AtOrBeyond last.streamId r.streamId) ∧
      ∀ p, (a.deleteStale db.streamPositions).lookup (a.streamName, a.instanceName) = some p →
        a.AtOrBeyond last.streamId p
  /-- Without explicit writers, a stored position that an earlier configuration
  left is not beyond the tables. -/
  no_writers : a.writers = [] →
    ∀ p, (a.deleteStale db.streamPositions).lookup (a.streamName, a.instanceName) = some p →
      a.factor * p ≤ a.maxStreamId db.tables
  /-- Every other writer has a stored position, or no ID is missing up to a position where none is looked
  for. -/
  positions : (∀ w ∈ a.writers, w ≠ a.instanceName → (a.streamName, w) ∈ db.streamPositions) ∨
    ∀ u, a.Trusted db u → ∀ i, 2 ≤ a.factor * i → a.factor * i ≤ u → db.Committed i

theorem committed_of_mem_loadedRows (hr : r ∈ a.loadedRows db) : db.Committed r.streamId := by
  unfold loadedRows at hr
  split at hr
  · exact nomatch hr
  · obtain ⟨t, ht, hrt⟩ := mem_flatMap.mp ((mem_insertionSort _).mp hr)
    exact ⟨t, ht, r, mem_of_mem_filter hrt, rfl⟩

/-- If the writer of an uncommitted ID has a stored position, the token stays
before that ID. -/
theorem getCurrentToken_before {i p : ℤ} (hw : w ∈ a.writers)
    (hne : w ≠ a.instanceName) (hi : ¬ db.Committed i)
    (hp : db.streamPositions.lookup (a.streamName, w) = some p) (hpi : a.Before p i) :
    a.Before (getCurrentToken a.positive (a.loadCurrentIds db)) i := by
  have hstored : (a.storedPositions db).lookup w = some (p * a.factor) :=
    (lookup_storedPositions a).mpr ⟨hw, p, hp, rfl⟩
  have hlt : p * a.factor < a.factor * i := by
    rw [mul_comm]
    exact hpi
  show a.factor * (a.factor * _) < _
  rw [factor_mul_factor]
  cases hmin : a.minStreamId db with
  | none =>
    rw [a.storedPositions_of_minStreamId hmin] at hstored
    exact nomatch hstored
  | some m =>
    refine foldl_loadRow_lt a hne hlt _ (fun r hr heq => hi ?_) hstored ?_ not_mem_nil
    · rw [← a.factor_mul_factor i, ← heq, factor_mul_factor]
      exact a.committed_of_mem_loadedRows hr
    · unfold blank startPosition
      rw [hmin]
      exact lt_of_le_of_lt (a.minStreamId_le hmin hstored) hlt

/-- Where no ID is missing up to these positions, none is missing up to the token, and conversely. -/
theorem forall_trusted_iff (db : StreamTables ι) :
    (∀ u, a.Trusted db u → ∀ i, 2 ≤ a.factor * i → a.factor * i ≤ u → db.Committed i) ↔
      ∀ i, 2 ≤ a.factor * i → a.AtOrBeyond (getCurrentToken a.positive (a.loadCurrentIds db)) i →
        db.Committed i := by
  obtain ⟨hstart, hcurrs, hpassed⟩ := a.foldl_loadRow_upto (a.loadedRows db) (a.blank db)
  have hmem : ∀ u, a.Trusted db u ↔ u = a.startPosition db ∨
      u ∈ a.minCurrs (a.blank db) (a.loadedRows db) :=
    fun u => or_congr_right (a.mem_minCurrs (a.loadedRows db) (a.blank db) (by simp [Busy, blank])).symm
  have htoken : ∀ i, a.AtOrBeyond (getCurrentToken a.positive (a.loadCurrentIds db)) i ↔
      a.factor * i ≤ ((a.loadedRows db).foldl a.loadRow (a.blank db)).persistedUptoPosition := by
    intro i
    show _ ≤ a.factor * (a.factor * _) ↔ _
    rw [factor_mul_factor]
    exact Iff.rfl
  constructor
  · intro h i htwo hle
    rw [htoken] at hle
    -- above the start, the load has seen a row with the ID or skipped it
    by_cases hupto : a.factor * i ≤ a.startPosition db
    · exact h _ ((hmem _).mpr (.inl rfl)) i htwo hupto
    · rcases hpassed (a.factor * i) (not_le.mp hupto) hle with hknown | ⟨r, hr, heq⟩ | ⟨u, hu, hiu⟩
      · exact absurd hknown not_mem_nil
      · rw [← a.factor_mul_factor i, ← heq, factor_mul_factor]
        exact a.committed_of_mem_loadedRows hr
      · exact h u ((hmem u).mpr (.inr hu)) i htwo hiu
  · intro h u hu i htwo hiu
    refine h i htwo ((htoken i).mpr (hiu.trans ?_))
    rcases (hmem u).mp hu with rfl | hu
    · exact hstart
    · exact hcurrs u hu

/-- **The load loses no position and its token is safe exactly if** the tables
are `Restartable`. -/
theorem loadCurrentIds_survives_iff (db : StreamTables ι) :
    a.Survives db ↔ a.Restartable db := by
  constructor
  · intro h
    refine ⟨fun last hlast hgreatest => ?_, fun hwriters p hp => ?_, ?_⟩
    · obtain ⟨last', hlast', hgreatest', hpos⟩ := a.exists_last_own hlast
      have heq : last'.streamId = last.streamId :=
        le_antisymm (hgreatest last' hlast') (hgreatest' last hlast)
      rw [← heq, ← hpos]
      exact ⟨fun r hr => h.rows r (a.mem_own.mp hr).1 (a.mem_own.mp hr).2, h.stored⟩
    · have hstored := h.stored p hp
      unfold AtOrBeyond at hstored
      rwa [a.getMinimalLocalCurrentToken_of_no_writers hwriters, factor_mul_factor] at hstored
    · rw [forall_trusted_iff]
      by_contra hcon
      obtain ⟨hsome, hgap⟩ := not_or.mp hcon
      simp only [not_forall] at hsome hgap
      obtain ⟨w, hw, hne, hnone⟩ := hsome
      obtain ⟨i, htwo, hle, hi⟩ := hgap
      -- the writer without a stored position may hold the missing ID
      have hflight : a.InFlight db [(w, i)] := by
        intro x hx
        rw [mem_singleton.mp hx]
        refine ⟨hw, hne, htwo, hi, fun p hp => ?_⟩
        exact absurd (Dict.mem_of_lookup hp) hnone
      have hbefore := h.inFlight _ hflight _ (mem_singleton.mpr rfl)
      exact absurd hbefore (not_lt.mpr hle)
  · intro h
    refine ⟨fun p hp => ?_, fun r hr hown => ?_, fun w hw hne p hp => ?_, fun ids hids x hx => ?_⟩
    · by_cases hrows : a.own (a.loadedRows db) = []
      · by_cases hwriters : a.writers = []
        · unfold AtOrBeyond
          rw [a.getMinimalLocalCurrentToken_of_no_writers hwriters, factor_mul_factor]
          exact h.no_writers hwriters p hp
        · have hmem : a.instanceName ∈ a.writers := by
            by_contra hmem
            rw [a.lookup_deleteStale_of_notMem hwriters hmem] at hp
            exact nomatch hp
          rw [a.lookup_deleteStale hmem] at hp
          rw [getMinimalLocalCurrentToken_loadCurrentIds, hrows,
            (lookup_storedPositions a).mpr ⟨hmem, p, hp, rfl⟩]
          show a.factor * p ≤ a.factor * (a.factor * (p * a.factor))
          rw [mul_comm p, factor_mul_factor]
      · obtain ⟨r, hr⟩ := exists_mem_of_ne_nil _ hrows
        obtain ⟨last, hlast, hgreatest, hpos⟩ := a.exists_last_own hr
        rw [hpos]
        exact (h.last_row last hlast hgreatest).2 p hp
    · obtain ⟨last, hlast, hgreatest, hpos⟩ := a.exists_last_own (a.mem_own.mpr ⟨hr, hown⟩)
      rw [hpos]
      exact (h.last_row last hlast hgreatest).1 r (a.mem_own.mpr ⟨hr, hown⟩)
    · refine ⟨p * a.factor, a.lookup_loadCurrentIds_of_ne hne hw hp, ?_⟩
      unfold AtOrBeyond
      rw [factor_mul_factor, mul_comm]
    · obtain ⟨hw, hne, htwo, hi, hstored⟩ := hids x hx
      rcases h.positions with hall | hgap
      · obtain ⟨p, hp⟩ := Dict.exists_lookup (hall x.1 hw hne)
        exact a.getCurrentToken_before hw hne hi hp (hstored p hp)
      · exact not_le.mp fun hle => hi ((a.forall_trusted_iff db).mp hgap x.2 htwo hle)

/-- Three databases that a restart does not survive, for the instance `0` of
two writers. A negative stream where `0` wrote -4 and -6: it is put back to -4.
A positive stream where `0`, idle, had stored the position 10 it saw the stream
at: its own row 4 puts it back. And a first write of `1` that is still open
while `0` has written past it: the token is beyond that write. -/
theorem loadCurrentIds_loses_position :
    let a : Bool → StreamArgs ℕ := fun positive => ⟨"stream", 0, [0, 1], positive⟩
    let stored : List ((String × ℕ) × ℤ) → Dict (String × ℕ) ℤ := Dict.update ∅
    let negative : StreamTables ℕ := ⟨stored [(("stream", 0), -6), (("stream", 1), -2)],
      [[⟨some 1, -2⟩, ⟨some 0, -4⟩, ⟨some 0, -6⟩]]⟩
    let idle : StreamTables ℕ := ⟨stored [(("stream", 0), 10), (("stream", 1), 3)],
      [[⟨some 1, 3⟩, ⟨some 0, 4⟩, ⟨some 1, 10⟩]]⟩
    let opened : StreamTables ℕ := ⟨stored [(("stream", 0), 6)], [[⟨some 0, 6⟩]]⟩
    ((a false).getMinimalLocalCurrentToken ((a false).loadCurrentIds negative) = -4 ∧
        getCurrentTokenForWriter false 0 0 ((a false).create negative) = -4 ∧
        ¬ (a false).Survives negative) ∧
      ((a true).getMinimalLocalCurrentToken ((a true).loadCurrentIds idle) = 4 ∧
        getCurrentTokenForWriter true 0 0 ((a true).create idle) = 4 ∧ ¬ (a true).Survives idle) ∧
      (getCurrentToken true ((a true).loadCurrentIds opened) = 6 ∧
        (a true).InFlight opened [(1, 5)] ∧ ¬ (a true).Survives opened) := by
  intro a stored negative idle opened
  have hflight : (a true).InFlight opened [(1, 5)] := by
    intro x hx
    rw [mem_singleton.mp hx]
    refine ⟨by decide, by decide, by decide, ?_, ?_⟩
    · rintro ⟨t, ht, r, hr, hid⟩
      rw [mem_singleton.mp ht] at hr
      rw [mem_singleton.mp hr] at hid
      exact absurd hid (by decide)
    · intro p hp
      have hnone : opened.streamPositions.lookup ("stream", 1) = none := by decide +kernel
      exact absurd (hnone.symm.trans hp) (by simp)
  refine ⟨⟨by decide +kernel, by decide +kernel, fun h => ?_⟩,
    ⟨by decide +kernel, by decide +kernel, fun h => ?_⟩, by decide +kernel, hflight, fun h => ?_⟩
  · exact absurd (h.stored (-6) (by decide +kernel)) (by decide +kernel)
  · exact absurd (h.stored 10 (by decide +kernel)) (by decide +kernel)
  · exact absurd (h.inFlight _ hflight _ (mem_singleton.mpr rfl)) (by decide +kernel)

end StreamArgs
end Synapse.Storage
