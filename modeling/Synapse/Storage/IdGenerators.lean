import Mathlib.Data.List.Sort
import Synapse.Util.Dict

/-!
# `MultiWriterIdGenerator`: the position bookkeeping of one instance

`synapse/storage/util/id_generators.py` tracks, on every worker, how far a
stream with several writers is known to be persisted. This file is the
bookkeeping of one instance: every block that the code runs under `_lock` is
one function here, and `_load_next_mult_id_txn`, which takes the lock three
times, is three functions (`recordFetch`, `addStreamIds`, `dropFetch`) with the
sequence read in between.

The second half says what each block preserves. A `Ledger` is what an observer
of the whole deployment knows: the sequence's last value, who was allocated
which ID, and which IDs their owners have marked finished. `GenInv l inst g`
ties the fields of the instance `inst` to it: `_persisted_upto_position` is
`Safe`, `_current_positions[w]` is `Done` for `w`, and whatever sits in
`_known_persisted_positions` is `Settled`.

All three also bound the value by the sequence's last value, and so survive
every later allocation (`Ledger.Extends`). Names keep the source's words; as in
the source, IDs are positive inside the generator and are multiplied by
`_return_factor` on the way in and out.
-/

namespace Synapse.Storage

open Synapse.Util List

variable {ι : Type}

/-- The mutable fields of a `MultiWriterIdGenerator`. `_unfinished_ids` and
`_in_flight_fetches` are sorted containers: their `[0]` and `[-1]` are `min?`
and `max?` here. `_known_persisted_positions` is the heap, listed in the order
in which `heappop` returns its entries. -/
structure MultiWriterIdGenerator (ι : Type) where
  currentPositions : Dict ι ℤ
  unfinishedIds : List ℤ
  inFlightFetches : List ℤ
  finishedIds : List ℤ
  persistedUptoPosition : ℤ
  knownPersistedPositions : List ℤ
  maxSeenAllocatedStreamId : ℤ
  maxPositionOfLocalInstance : ℤ
deriving DecidableEq

namespace MultiWriterIdGenerator

section Methods
variable (g : MultiWriterIdGenerator ι)

/-- `self._unfinished_ids or self._in_flight_fetches`. -/
def Busy : Prop := g.unfinishedIds ≠ [] ∨ g.inFlightFetches ≠ []

instance (g : MultiWriterIdGenerator ι) : Decidable g.Busy := inferInstanceAs (Decidable (_ ∨ _))

/-- The tail of `__init__`, once `_load_current_ids` has filled in the
positions: the maxima start from what was loaded. -/
def ofLoaded (positions : Dict ι ℤ) (persistedUpto : ℤ) (known : List ℤ) : MultiWriterIdGenerator ι :=
  let maxSeen := max ((positions.entries.map (·.2)).max?.getD 1) persistedUpto
  { currentPositions := positions
    unfinishedIds := []
    inFlightFetches := []
    finishedIds := []
    persistedUptoPosition := persistedUpto
    knownPersistedPositions := known
    maxSeenAllocatedStreamId := maxSeen
    maxPositionOfLocalInstance := maxSeen }

/-- The first block of `_load_next_mult_id_txn`: remember the largest ID seen
so far. Returns `current_max`. -/
def recordFetch : ℤ × MultiWriterIdGenerator ι := (g.maxSeenAllocatedStreamId,
    { g with inFlightFetches := g.maxSeenAllocatedStreamId :: g.inFlightFetches })

/-- The second block, after the sequence was read. `none` is the `IndexError`
of `self._unfinished_ids[-1]` on an empty set, raised when no ID was asked for
and none is pending. -/
def addStreamIds (streamIds : List ℤ) (g : MultiWriterIdGenerator ι) :
    Option (MultiWriterIdGenerator ι) :=
  ((g.unfinishedIds ∪ streamIds).max?).map fun last =>
    { g with
      unfinishedIds := g.unfinishedIds ∪ streamIds
      maxSeenAllocatedStreamId := max g.maxSeenAllocatedStreamId last }

/-- The `finally` block: drop one occurrence of the marker. -/
def dropFetch (currentMax : ℤ) (g : MultiWriterIdGenerator ι) : MultiWriterIdGenerator ι :=
  { g with inFlightFetches := g.inFlightFetches.erase currentMax }

variable [DecidableEq ι]

/-- `min_curr` of `_add_persisted_position`: the minimum over the other
writers, lowered to our own position while we have writes in flight. -/
def minCurr (inst : ι) (g : MultiWriterIdGenerator ι) : ℤ :=
  let ourCurrentPosition := g.currentPositions.getD inst 0
  let minCurr := (g.currentPositions.valuesExcept inst).min?.getD ourCurrentPosition
  if ourCurrentPosition ≠ 0 ∧ g.Busy then min minCurr ourCurrentPosition else minCurr

/-- The loop that closes `_add_persisted_position`: discard known positions at
or below the current one, step over the one directly above it, stop at a gap. -/
def skipForward : ℤ → List ℤ → ℤ × List ℤ
  | pos, [] => (pos, [])
  | pos, x :: xs =>
    if x ≤ pos then skipForward pos xs
    else if x = pos + 1 then skipForward (pos + 1) xs
    else (pos, x :: xs)

/-- `_add_persisted_position`. -/
def addPersistedPosition (inst : ι) (g : MultiWriterIdGenerator ι) (newId : ℤ) :
    MultiWriterIdGenerator ι :=
  let known := g.knownPersistedPositions.orderedInsert (· ≤ ·) newId
  let persisted := max (g.minCurr inst) g.persistedUptoPosition
  -- our own position is announced before the gaps below are skipped
  let maxLocal := max g.maxPositionOfLocalInstance persisted
  let maxLocal := if g.Busy then maxLocal else max g.maxSeenAllocatedStreamId maxLocal
  { g with
    maxPositionOfLocalInstance := maxLocal
    persistedUptoPosition := (skipForward persisted known).1
    knownPersistedPositions := (skipForward persisted known).2 }

/-- `min_unfinished` of `_mark_ids_as_finished`; `none` when nothing is in
flight. An in-flight marker is the largest *safe* ID, hence the `+ 1`. -/
def minUnfinished : Option ℤ :=
  match g.unfinishedIds.min?, g.inFlightFetches.min? with
  | some u, some f => some (min u (f + 1))
  | none, some f => some (f + 1)
  | some u, none => some u
  | none, none => none

/-- `new_cur` and what stays in `_finished_ids`. The outer `none` is the
`ValueError` of `max(self._finished_ids)` on an empty set. -/
def takeFinished : Option (Option ℤ × List ℤ) :=
  match g.minUnfinished with
  | some m =>
    some ((g.finishedIds.filter (· < m)).max?, g.finishedIds.filter (¬ · < m))
  | none => (g.finishedIds.max?).map fun newCur => (some newCur, [])

/-- The `if new_cur:` block of `_mark_ids_as_finished`. -/
def moveLocalPosition (inst : ι) (newCur : Option ℤ) (g : MultiWriterIdGenerator ι) :
    MultiWriterIdGenerator ι :=
  match newCur with
  | none => g
  | some c =>
    if c = 0 then g
    else
      let curr := g.currentPositions.getD inst 0
      { g with
        currentPositions := g.currentPositions.insert inst (max curr c)
        maxPositionOfLocalInstance := max (max curr c) g.maxPositionOfLocalInstance }

/-- `_mark_ids_as_finished`. -/
def markIdsAsFinished (inst : ι) (nextIds : List ℤ) (g : MultiWriterIdGenerator ι) :
    Option (MultiWriterIdGenerator ι) :=
  let g := { g with
    unfinishedIds := g.unfinishedIds.filter (· ∉ nextIds)
    finishedIds := g.finishedIds ∪ nextIds }
  g.takeFinished.map fun r =>
    nextIds.foldl (addPersistedPosition inst)
      (moveLocalPosition inst r.1 { g with finishedIds := r.2 })

variable (positive : Bool)

/-- `_return_factor`. -/
def returnFactor : ℤ := if positive then 1 else -1

/-- `advance`. -/
def advance (inst instanceName : ι) (newId : ℤ) (g : MultiWriterIdGenerator ι) :
    MultiWriterIdGenerator ι :=
  let newId := newId * returnFactor positive
  addPersistedPosition inst
    { g with
      currentPositions := g.currentPositions.insert instanceName
        (max newId (g.currentPositions.getD instanceName 0))
      maxSeenAllocatedStreamId := max g.maxSeenAllocatedStreamId newId }
    newId

/-- `get_persisted_upto_position`, which is `get_current_token`. -/
def getCurrentToken (g : MultiWriterIdGenerator ι) : ℤ := returnFactor positive * g.persistedUptoPosition

/-- `get_current_token_for_writer`. -/
def getCurrentTokenForWriter (inst instanceName : ι) (g : MultiWriterIdGenerator ι) : ℤ :=
  if inst = instanceName then returnFactor positive * g.maxPositionOfLocalInstance
  else
    let pos := g.currentPositions.getD instanceName g.persistedUptoPosition
    returnFactor positive * max pos g.persistedUptoPosition

end Methods
end MultiWriterIdGenerator

/-! ## The ledger: what an observer of every instance knows -/

/-- The sequence's last value, every allocation, and every allocation that its
owner has marked finished. -/
structure Ledger (ι : Type) where
  lastValue : ℤ
  allocated : List (ι × ℤ)
  finished : List (ι × ℤ)

namespace Ledger
variable (l : Ledger ι)

/-- Everything allocated at or below `p` is finished, and so will be whatever
is allocated from now on. -/
def Safe (p : ℤ) : Prop := p ≤ l.lastValue ∧ ∀ w i, (w, i) ∈ l.allocated → i ≤ p → (w, i) ∈ l.finished

/-- Everything `w` was allocated at or below `p` is finished. -/
def Done (w : ι) (p : ℤ) : Prop :=
  p ≤ l.lastValue ∧ ∀ i, (w, i) ∈ l.allocated → i ≤ p → (w, i) ∈ l.finished

/-- Nobody holds `v` unfinished, now or later. -/
def Settled (v : ℤ) : Prop := v ≤ l.lastValue ∧ ∀ w, (w, v) ∈ l.allocated → (w, v) ∈ l.finished

/-- `l'` is `l` after some allocations (above the sequence) and some
completions. -/
structure Extends (l l' : Ledger ι) : Prop where
  lastValue_le : l.lastValue ≤ l'.lastValue
  finished_sub : ∀ x ∈ l.finished, x ∈ l'.finished
  allocated_new : ∀ x ∈ l'.allocated, x ∈ l.allocated ∨ l.lastValue < x.2

theorem Extends.refl : l.Extends l := ⟨le_rfl, fun _ h => h, fun _ h => .inl h⟩

theorem Extends.trans {l₁ l₂ l₃ : Ledger ι} (h₁ : l₁.Extends l₂) (h₂ : l₂.Extends l₃) :
    l₁.Extends l₃ := by
  refine ⟨le_trans h₁.lastValue_le h₂.lastValue_le,
    fun x hx => h₂.finished_sub x (h₁.finished_sub x hx), fun x hx => ?_⟩
  rcases h₂.allocated_new x hx with hin | hnew
  · exact h₁.allocated_new x hin
  · exact .inr (lt_of_le_of_lt h₁.lastValue_le hnew)

variable {p : ℤ} {l l' : Ledger ι}

theorem Safe.mono (h : l.Extends l') (hs : l.Safe p) : l'.Safe p := by
  refine ⟨le_trans hs.1 h.lastValue_le, fun w i hi hip => ?_⟩
  rcases h.allocated_new _ hi with hin | hnew
  · exact h.finished_sub _ (hs.2 w i hin hip)
  · have := hs.1
    omega

theorem Done.mono {w : ι} (h : l.Extends l') (hd : l.Done w p) : l'.Done w p := by
  refine ⟨le_trans hd.1 h.lastValue_le, fun i hi hip => ?_⟩
  rcases h.allocated_new _ hi with hin | hnew
  · exact h.finished_sub _ (hd.2 i hin hip)
  · have := hd.1
    omega

theorem Settled.mono {v : ℤ} (h : l.Extends l') (hv : l.Settled v) : l'.Settled v := by
  refine ⟨le_trans hv.1 h.lastValue_le, fun w hw => ?_⟩
  rcases h.allocated_new _ hw with hin | hnew
  · exact h.finished_sub _ (hv.2 w hin)
  · have := hv.1
    omega

variable {l : Ledger ι}

theorem Safe.settled (h : l.Safe p) : l.Settled p := ⟨h.1, fun w hw => h.2 w p hw (le_refl p)⟩

theorem Safe.done (h : l.Safe p) (w : ι) : l.Done w p := ⟨h.1, fun i => h.2 w i⟩

/-- A safe position may step over a settled ID. -/
theorem Safe.succ (h : l.Safe p) (hs : l.Settled (p + 1)) : l.Safe (p + 1) := by
  refine ⟨hs.1, fun w i hi hip => ?_⟩
  rcases Int.lt_or_eq_of_le hip with hlt | rfl
  · exact h.2 w i hi (by omega)
  · exact hs.2 w hi

variable {p q : ℤ}

theorem Safe.max (hp : l.Safe p) (hq : l.Safe q) : l.Safe (max p q) := by
  rcases max_choice p q with h | h
  · rw [h]; exact hp
  · rw [h]; exact hq

theorem Done.max {w : ι} (hp : l.Done w p) (hq : l.Done w q) : l.Done w (max p q) := by
  rcases max_choice p q with h | h
  · rw [h]; exact hp
  · rw [h]; exact hq

theorem Settled.max (hp : l.Settled p) (hq : l.Settled q) : l.Settled (max p q) := by
  rcases max_choice p q with h | h
  · rw [h]; exact hp
  · rw [h]; exact hq

end Ledger

/-! ## The invariant of one instance -/

/-- A position that `w` may announce: positive, `Done` for `w`, and settled as
an ID. -/
structure Announced (l : Ledger ι) (w : ι) (p : ℤ) : Prop where
  pos : 0 < p
  done : l.Done w p
  settled : l.Settled p

variable {l l' : Ledger ι} {p : ℤ} {w : ι}

theorem Announced.mono (h : l.Extends l') (ha : Announced l w p) : Announced l' w p :=
  ⟨ha.pos, ha.done.mono h, ha.settled.mono h⟩

theorem Announced.max {p q : ℤ} (hp : Announced l w p) (hq : Announced l w q) :
    Announced l w (max p q) := ⟨lt_max_of_lt_left hp.pos, hp.done.max hq.done, hp.settled.max hq.settled⟩

/-- Every ID that `inst` holds unfinished is either pending in
`_unfinished_ids` or above a marker in `_in_flight_fetches`. -/
def Covered (l : Ledger ι) (inst : ι) (g : MultiWriterIdGenerator ι) : Prop :=
  ∀ i, (inst, i) ∈ l.allocated → (inst, i) ∉ l.finished →
    i ∈ g.unfinishedIds ∨ ∃ m ∈ g.inFlightFetches, m < i

namespace MultiWriterIdGenerator

/-- Stepping over settled positions keeps a safe position safe. -/
theorem skipForward_safe : ∀ (known : List ℤ) {pos : ℤ}, l.Safe pos → (∀ v ∈ known, l.Settled v) →
      l.Safe (skipForward pos known).1 ∧ ∀ v ∈ (skipForward pos known).2, l.Settled v
  | [], pos, hpos, _ => ⟨hpos, by simp [skipForward]⟩
  | x :: xs, pos, hpos, hk => by
    have hx := hk x (mem_cons_self ..)
    have hxs : ∀ v ∈ xs, l.Settled v := fun v hv => hk v (mem_cons_of_mem _ hv)
    unfold skipForward
    split
    · exact skipForward_safe xs hpos hxs
    · split
      next heq => exact skipForward_safe xs (hpos.succ (heq ▸ hx)) hxs
      · exact ⟨hpos, hk⟩

variable {g : MultiWriterIdGenerator ι} {inst : ι}

/-- Nothing in flight: everything we were allocated is finished. -/
theorem finished_of_not_busy (hc : Covered l inst g) (hb : ¬ g.Busy) {i : ℤ}
    (hi : (inst, i) ∈ l.allocated) : (inst, i) ∈ l.finished := by
  by_contra hnf
  rcases hc i hi hnf with hu | ⟨m, hm, _⟩
  · exact hb (.inl (ne_nil_of_mem hu))
  · exact hb (.inr (ne_nil_of_mem hm))

/-- A pending ID is at or above `min_unfinished`. -/
theorem minUnfinished_le_unfinished {m i : ℤ} (hm : g.minUnfinished = some m)
    (hi : i ∈ g.unfinishedIds) : m ≤ i := by
  unfold minUnfinished at hm
  obtain ⟨u, _, hu, hle⟩ := exists_min? (ne_nil_of_mem hi)
  have := hle i hi
  cases hf : g.inFlightFetches.min? <;> rw [hu, hf] at hm <;>
    simp only [Option.some.injEq] at hm <;> omega

/-- Whatever an in-flight fetch may draw is at or above `min_unfinished`. -/
theorem minUnfinished_le_inFlight {m f : ℤ} (hm : g.minUnfinished = some m)
    (hf : f ∈ g.inFlightFetches) : m ≤ f + 1 := by
  unfold minUnfinished at hm
  obtain ⟨f', _, hF, hle⟩ := exists_min? (ne_nil_of_mem hf)
  have := hle f hf
  cases hu : g.unfinishedIds.min? <;> rw [hu, hF] at hm <;>
    simp only [Option.some.injEq] at hm <;> omega

theorem not_busy_of_minUnfinished (hm : g.minUnfinished = none) : ¬ g.Busy := by
  unfold minUnfinished at hm
  split at hm
  · exact nomatch hm
  · exact nomatch hm
  · exact nomatch hm
  next hu hf =>
    rintro (h | h)
    · exact h (min?_eq_none_iff.mp hu)
    · exact h (min?_eq_none_iff.mp hf)

/-- `new_cur` is a finished ID below which we hold nothing unfinished, and what
is kept in `_finished_ids` was there before. -/
theorem takeFinished_spec {newCur : Option ℤ} {rest : List ℤ}
    (hfin : ∀ i ∈ g.finishedIds, l.Settled i) (hc : Covered l inst g)
    (h : g.takeFinished = some (newCur, rest)) : (∀ c, newCur = some c → l.Settled c ∧ l.Done inst c) ∧
    ∀ i ∈ rest, i ∈ g.finishedIds := by
  unfold takeFinished at h
  split at h
  next m hm =>
    obtain ⟨rfl, rfl⟩ := h
    refine ⟨fun c hcur => ?_, fun i hi => (mem_filter.mp hi).1⟩
    obtain ⟨hmem, hlt⟩ := mem_filter.mp (max?_eq_some_iff.mp hcur).1
    have hlt : c < m := by simpa using hlt
    refine ⟨hfin c hmem, (hfin c hmem).1, fun i hi hic => ?_⟩
    by_contra hnf
    rcases hc i hi hnf with hu | ⟨f, hf, hfi⟩
    · have := minUnfinished_le_unfinished hm hu
      omega
    · have := minUnfinished_le_inFlight hm hf
      omega
  next hm =>
    rw [Option.map_eq_some_iff] at h
    obtain ⟨c, hmax, heq⟩ := h
    obtain ⟨rfl, rfl⟩ := heq
    refine ⟨fun c' hc' => ?_, nofun⟩
    obtain rfl := Option.some.inj hc'
    have hset := hfin c (max?_eq_some_iff.mp hmax).1
    exact ⟨hset, hset.1, fun i hi _ =>
      finished_of_not_busy hc (not_busy_of_minUnfinished hm) hi⟩

/-- The second block of an allocation raises only when no ID was drawn. -/
theorem addStreamIds_none {ids : List ℤ} (h : addStreamIds ids g = none) : ids = [] := by
  unfold addStreamIds at h
  rw [Option.map_eq_none_iff, max?_eq_none_iff] at h
  refine eq_nil_iff_forall_not_mem.mpr fun i hi => ?_
  have : i ∈ g.unfinishedIds ∪ ids := mem_union_iff.mpr (.inr hi)
  rw [h] at this
  exact nomatch this

theorem takeFinished_none (h : g.takeFinished = none) : g.finishedIds = [] := by
  unfold takeFinished at h
  split at h
  · exact nomatch h
  · exact max?_eq_none_iff.mp (Option.map_eq_none_iff.mp h)

end MultiWriterIdGenerator

variable [DecidableEq ι]

/-- What the fields of the instance `inst` say about the ledger. -/
structure GenInv (l : Ledger ι) (inst : ι) (g : MultiWriterIdGenerator ι) : Prop where
  persisted : l.Safe g.persistedUptoPosition
  positions : ∀ w p, g.currentPositions.lookup w = some p → Announced l w p
  owners : ∀ w i, (w, i) ∈ l.allocated → (w, i) ∉ l.finished → w ∈ g.currentPositions
  known : ∀ v ∈ g.knownPersistedPositions, l.Settled v
  localPos : Announced l inst g.maxPositionOfLocalInstance
  seen_le : g.maxSeenAllocatedStreamId ≤ l.lastValue
  seen : ∀ w, (w, g.maxSeenAllocatedStreamId) ∈ l.allocated →
    (w, g.maxSeenAllocatedStreamId) ∈ l.finished ∨ w = inst
  unfinished : ∀ i ∈ g.unfinishedIds, i ≤ l.lastValue ∧ ∀ w, (w, i) ∈ l.allocated → w = inst
  finishedIds : ∀ i ∈ g.finishedIds, l.Settled i

/-- The invariant survives every allocation by, and every completion of,
somebody known to the instance. -/
theorem GenInv.mono {inst : ι} {g : MultiWriterIdGenerator ι} (h : l.Extends l')
    (hown : ∀ w i, (w, i) ∈ l'.allocated → (w, i) ∉ l'.finished → w ∈ g.currentPositions)
    (hg : GenInv l inst g) : GenInv l' inst g where
  persisted := hg.persisted.mono h
  positions := fun w p hp => (hg.positions w p hp).mono h
  owners := hown
  known := fun v hv => (hg.known v hv).mono h
  localPos := hg.localPos.mono h
  seen_le := le_trans hg.seen_le h.lastValue_le
  seen := by
    intro w hw
    rcases h.allocated_new _ hw with hin | hnew
    · rcases hg.seen w hin with hf | hs
      · exact .inl (h.finished_sub _ hf)
      · exact .inr hs
    · have := hg.seen_le
      omega
  unfinished := by
    intro i hi
    obtain ⟨hle, hw⟩ := hg.unfinished i hi
    refine ⟨le_trans hle h.lastValue_le, fun w hwi => ?_⟩
    rcases h.allocated_new _ hwi with hin | hnew
    · exact hw w hin
    · omega
  finishedIds := fun i hi => (hg.finishedIds i hi).mono h

namespace MultiWriterIdGenerator
variable {g : MultiWriterIdGenerator ι} {inst : ι}

/-- `min_curr` is bounded by every other writer's position. -/
theorem minCurr_le_other (hw : w ≠ inst) (hp : g.currentPositions.lookup w = some p) :
    g.minCurr inst ≤ p := by
  have hmem : p ∈ g.currentPositions.valuesExcept inst := Dict.mem_valuesExcept.mpr ⟨w, hw, hp⟩
  have hmin : (g.currentPositions.valuesExcept inst).min?.getD (g.currentPositions.getD inst 0) ≤ p := by
    obtain ⟨m, _, hm, hle⟩ := exists_min? (ne_nil_of_mem hmem)
    rw [hm]
    exact hle p hmem
  unfold minCurr
  dsimp only
  split
  · exact le_trans (min_le_left _ _) hmin
  · exact hmin

/-- While we have writes in flight, `min_curr` is bounded by our position. -/
theorem minCurr_le_self (hp : g.currentPositions.lookup inst = some p) (h0 : 0 < p)
    (hb : g.Busy) : g.minCurr inst ≤ p := by
  unfold minCurr
  rw [Dict.getD_of_lookup hp]
  rw [if_pos ⟨by omega, hb⟩]
  exact min_le_right _ _

/-- `min_curr` is one of the positions, or `0` when there is none. -/
theorem minCurr_cases (inst : ι) (g : MultiWriterIdGenerator ι) :
    g.minCurr inst = 0 ∨ ∃ w p, g.currentPositions.lookup w = some p ∧ g.minCurr inst = p := by
  have hour : g.currentPositions.getD inst 0 = 0 ∨
      ∃ w p, g.currentPositions.lookup w = some p ∧ g.currentPositions.getD inst 0 = p := by
    cases hl : g.currentPositions.lookup inst with
    | none => exact .inl (by rw [Dict.getD, hl]; rfl)
    | some p => exact .inr ⟨inst, p, hl, Dict.getD_of_lookup hl⟩
  have hmin : (g.currentPositions.valuesExcept inst).min?.getD (g.currentPositions.getD inst 0) = 0 ∨
      ∃ w p, g.currentPositions.lookup w = some p ∧
        (g.currentPositions.valuesExcept inst).min?.getD (g.currentPositions.getD inst 0) = p := by
    cases hm : (g.currentPositions.valuesExcept inst).min? with
    | none => exact hour
    | some m =>
      obtain ⟨w, _, hw⟩ := Dict.mem_valuesExcept.mp (min?_eq_some_iff.mp hm).1
      exact .inr ⟨w, m, hw, rfl⟩
  unfold minCurr
  dsimp only
  split
  · rcases min_choice ((g.currentPositions.valuesExcept inst).min?.getD
      (g.currentPositions.getD inst 0)) (g.currentPositions.getD inst 0) with h | h
    · rw [h]; exact hmin
    · rw [h]; exact hour
  · exact hmin

variable {l : Ledger ι}

/-- The heart of the matter: `min_curr` is safe. Another writer's unfinished
IDs lie above that writer's position; our own either do not exist (nothing in
flight, so our position may be ignored) or lie above our position. -/
theorem minCurr_safe (h0 : 0 ≤ l.lastValue) (hg : GenInv l inst g) (hc : Covered l inst g) :
    l.Safe (g.minCurr inst) := by
  refine ⟨?_, fun w i hi hle => ?_⟩
  · rcases minCurr_cases inst g with h | ⟨w, p, hp, h⟩
    · rw [h]; exact h0
    · rw [h]; exact (hg.positions w p hp).done.1
  · by_contra hnf
    obtain ⟨p, hp⟩ := Dict.exists_lookup (hg.owners w i hi hnf)
    have hann := hg.positions w p hp
    by_cases hw : w = inst
    · subst hw
      by_cases hb : g.Busy
      · exact hnf (hann.done.2 i hi (le_trans hle (minCurr_le_self hp hann.pos hb)))
      · exact hnf (finished_of_not_busy hc hb hi)
    · exact hnf (hann.done.2 i hi (le_trans hle (minCurr_le_other hw hp)))

/-- `_add_persisted_position` preserves the invariant for a settled ID. -/
theorem addPersistedPosition_inv {newId : ℤ} (h0 : 0 ≤ l.lastValue) (hnew : l.Settled newId)
    (hg : GenInv l inst g) (hc : Covered l inst g) :
    GenInv l inst (addPersistedPosition inst g newId) := by
  have hP : l.Safe (max (g.minCurr inst) g.persistedUptoPosition) :=
    (minCurr_safe h0 hg hc).max hg.persisted
  have hknown : ∀ v ∈ g.knownPersistedPositions.orderedInsert (· ≤ ·) newId, l.Settled v := by
    intro v hv
    rcases (mem_orderedInsert _).mp hv with rfl | hv'
    · exact hnew
    · exact hg.known v hv'
  obtain ⟨hP', hknown'⟩ := skipForward_safe _ hP hknown
  have hloc : Announced l inst (max g.maxPositionOfLocalInstance
      (max (g.minCurr inst) g.persistedUptoPosition)) :=
    ⟨lt_max_of_lt_left hg.localPos.pos, hg.localPos.done.max (hP.done inst),
      hg.localPos.settled.max hP.settled⟩
  refine ⟨hP', hg.positions, hg.owners, hknown', ?_, hg.seen_le, hg.seen, hg.unfinished, hg.finishedIds⟩
  show Announced l inst (if g.Busy then _ else _)
  split
  · exact hloc
  next hb =>
    -- idle: the largest ID seen is nobody's unfinished ID, so it may be announced
    refine ⟨lt_max_of_lt_right hloc.pos, Ledger.Done.max ⟨hg.seen_le, ?_⟩ hloc.done,
      Ledger.Settled.max ⟨hg.seen_le, ?_⟩ hloc.settled⟩
    · intro i hi _
      exact finished_of_not_busy hc hb hi
    · intro w hw
      rcases hg.seen w hw with hf | rfl
      · exact hf
      · exact finished_of_not_busy hc hb hw

/-- The loop over `next_ids` that closes `_mark_ids_as_finished`. -/
theorem addPersistedPositions_inv (h0 : 0 ≤ l.lastValue) :
    ∀ (ids : List ℤ) {g : MultiWriterIdGenerator ι}, (∀ i ∈ ids, l.Settled i) →
      GenInv l inst g → Covered l inst g → GenInv l inst (ids.foldl (addPersistedPosition inst) g)
  | [], _, _, hg, _ => hg
  | i :: ids, g, hids, hg, hc => by
    refine addPersistedPositions_inv h0 ids (fun j hj => hids j (mem_cons_of_mem _ hj))
      (addPersistedPosition_inv h0 (hids i (mem_cons_self ..)) hg hc) ?_
    exact hc

/-- The `for` loop changes neither what is pending nor who is known. -/
theorem addPersistedPositions_frame (inst : ι) : ∀ (ids : List ℤ) (g : MultiWriterIdGenerator ι),
      (ids.foldl (addPersistedPosition inst) g).unfinishedIds = g.unfinishedIds ∧
      (ids.foldl (addPersistedPosition inst) g).inFlightFetches = g.inFlightFetches ∧
      (ids.foldl (addPersistedPosition inst) g).currentPositions = g.currentPositions
  | [], _ => ⟨rfl, rfl, rfl⟩
  | i :: ids, g => by
    exact addPersistedPositions_frame inst ids (addPersistedPosition inst g i)

/-- The `if new_cur:` block preserves the invariant on a known writer. -/
theorem moveLocalPosition_inv {newCur : Option ℤ} (hinst : inst ∈ g.currentPositions)
    (hcur : ∀ c, newCur = some c → l.Settled c ∧ l.Done inst c) (hg : GenInv l inst g) :
    GenInv l inst (moveLocalPosition inst newCur g) := by
  unfold moveLocalPosition
  split
  · exact hg
  next c =>
    split
    · exact hg
    · obtain ⟨curr, hl⟩ := Dict.exists_lookup hinst
      have hold := hg.positions inst curr hl
      obtain ⟨hset, hdone⟩ := hcur c rfl
      have hann : Announced l inst (max curr c) :=
        ⟨lt_max_of_lt_left hold.pos, hold.done.max hdone, hold.settled.max hset⟩
      rw [Dict.getD_of_lookup hl]
      refine ⟨hg.persisted, ?_, ?_, hg.known, hann.max hg.localPos, hg.seen_le, hg.seen,
        hg.unfinished, hg.finishedIds⟩
      · intro w p hp
        rcases Dict.lookup_insert_cases hp with ⟨rfl, rfl⟩ | ⟨_, hp'⟩
        · exact hann
        · exact hg.positions w p hp'
      · intro w i hi hnf
        exact (AList.mem_insert _).mpr (.inr (hg.owners w i hi hnf))

theorem moveLocalPosition_frame (inst : ι) (newCur : Option ℤ) (g : MultiWriterIdGenerator ι) :
    (moveLocalPosition inst newCur g).unfinishedIds = g.unfinishedIds ∧
    (moveLocalPosition inst newCur g).inFlightFetches = g.inFlightFetches ∧
    ∀ w, w ∈ g.currentPositions → w ∈ (moveLocalPosition inst newCur g).currentPositions := by
  unfold moveLocalPosition
  split
  · exact ⟨rfl, rfl, fun _ h => h⟩
  next c =>
    split
    · exact ⟨rfl, rfl, fun _ h => h⟩
    · exact ⟨rfl, rfl, fun w h => (AList.mem_insert _).mpr (.inr h)⟩

variable {g g' : MultiWriterIdGenerator ι} {nextIds : List ℤ}

/-- `_mark_ids_as_finished` preserves the invariant, against a ledger in which
the IDs are already finished. -/
theorem markIdsAsFinished_inv
    (h0 : 0 ≤ l.lastValue) (hids : ∀ i ∈ nextIds, l.Settled i)
    (hfin : ∀ i ∈ nextIds, (inst, i) ∈ l.finished) (hinst : inst ∈ g.currentPositions)
    (hg : GenInv l inst g) (hc : Covered l inst g) (h : markIdsAsFinished inst nextIds g = some g') :
    GenInv l inst g' := by
  unfold markIdsAsFinished at h
  rw [Option.map_eq_some_iff] at h
  obtain ⟨⟨newCur, rest⟩, htake, rfl⟩ := h
  have hfinIds : ∀ i ∈ g.finishedIds ∪ nextIds, l.Settled i := by
    intro i hi
    rcases mem_union_iff.mp hi with h | h
    · exact hg.finishedIds i h
    · exact hids i h
  -- what the mark drops from `_unfinished_ids` is finished in the ledger
  have hc' : Covered l inst { g with
      unfinishedIds := g.unfinishedIds.filter (· ∉ nextIds)
      finishedIds := g.finishedIds ∪ nextIds } := by
    intro i hi hnf
    rcases hc i hi hnf with hu | hm
    · refine .inl (mem_filter.mpr ⟨hu, ?_⟩)
      have : i ∉ nextIds := fun hin => hnf (hfin i hin)
      simpa using this
    · exact .inr hm
  obtain ⟨hcur, hrest⟩ := takeFinished_spec hfinIds hc' htake
  have hg₁ : GenInv l inst { g with
      unfinishedIds := g.unfinishedIds.filter (· ∉ nextIds)
      finishedIds := rest } :=
    ⟨hg.persisted, hg.positions, hg.owners, hg.known, hg.localPos, hg.seen_le, hg.seen,
      fun i hi => hg.unfinished i (mem_filter.mp hi).1, fun i hi => hfinIds i (hrest i hi)⟩
  obtain ⟨hfu, hff, -⟩ := moveLocalPosition_frame inst newCur { g with
      unfinishedIds := g.unfinishedIds.filter (· ∉ nextIds)
      finishedIds := rest }
  refine addPersistedPositions_inv h0 nextIds hids (moveLocalPosition_inv hinst hcur hg₁) ?_
  intro i hi hnf
  rw [hfu, hff]
  exact hc' i hi hnf

/-- `_mark_ids_as_finished` raises only when given no ID. -/
theorem markIdsAsFinished_none {ids : List ℤ} (h : markIdsAsFinished inst ids g = none) : ids = [] := by
  have hnil : g.finishedIds ∪ ids = [] := takeFinished_none (Option.map_eq_none_iff.mp h)
  refine eq_nil_iff_forall_not_mem.mpr fun i hi => ?_
  have : i ∈ g.finishedIds ∪ ids := mem_union_iff.mpr (.inr hi)
  rw [hnil] at this
  exact nomatch this

/-- What `_mark_ids_as_finished` leaves pending, and whom it knows. -/
theorem markIdsAsFinished_frame (h : markIdsAsFinished inst nextIds g = some g') :
    g'.unfinishedIds = g.unfinishedIds.filter (· ∉ nextIds) ∧ g'.inFlightFetches = g.inFlightFetches ∧
    ∀ w, w ∈ g.currentPositions → w ∈ g'.currentPositions := by
  unfold markIdsAsFinished at h
  rw [Option.map_eq_some_iff] at h
  obtain ⟨⟨newCur, rest⟩, -, rfl⟩ := h
  obtain ⟨h1, h2, h3⟩ := addPersistedPositions_frame inst nextIds (moveLocalPosition inst newCur { g with
      unfinishedIds := g.unfinishedIds.filter (· ∉ nextIds)
      finishedIds := rest })
  obtain ⟨h4, h5, h6⟩ := moveLocalPosition_frame inst newCur { g with
      unfinishedIds := g.unfinishedIds.filter (· ∉ nextIds)
      finishedIds := rest }
  refine ⟨h1.trans h4, h2.trans h5, fun w hw => ?_⟩
  rw [h3]
  exact h6 w hw

/-- What `advance` does to a token that was multiplied on its way out. -/
theorem advance_token (positive : Bool) (inst w : ι) (p : ℤ) (g : MultiWriterIdGenerator ι) :
    advance positive inst w (returnFactor positive * p) g = addPersistedPosition inst { g with
          currentPositions := g.currentPositions.insert w
            (max p (g.currentPositions.getD w 0))
          maxSeenAllocatedStreamId := max g.maxSeenAllocatedStreamId p } p := by
  have hp : returnFactor positive * p * returnFactor positive = p := by
    cases positive <;> simp [returnFactor]
  unfold advance
  simp only [hp]

/-- `advance` preserves the invariant when fed what a writer announced. -/
theorem advance_inv {positive : Bool} {inst w : ι} (h0 : 0 ≤ l.lastValue) (hp : Announced l w p)
    (hg : GenInv l inst g) (hc : Covered l inst g) :
    GenInv l inst (advance positive inst w (returnFactor positive * p) g) := by
  have hann : Announced l w (max p (g.currentPositions.getD w 0)) := by
    cases hl : g.currentPositions.lookup w with
    | none =>
      have hz : g.currentPositions.getD w 0 = 0 := by rw [Dict.getD, hl]; rfl
      rw [hz, max_eq_left (le_of_lt hp.pos)]
      exact hp
    | some q =>
      rw [Dict.getD_of_lookup hl]
      exact hp.max (hg.positions w q hl)
  rw [advance_token]
  refine addPersistedPosition_inv h0 hp.settled ?_ hc
  refine ⟨hg.persisted, ?_, ?_, hg.known, hg.localPos, max_le hg.seen_le hp.settled.1, ?_,
    hg.unfinished, hg.finishedIds⟩
  · intro w' q hq
    rcases Dict.lookup_insert_cases hq with ⟨rfl, rfl⟩ | ⟨_, hq'⟩
    · exact hann
    · exact hg.positions w' q hq'
  · intro w' i hi hnf
    exact (AList.mem_insert _).mpr (.inr (hg.owners w' i hi hnf))
  · intro w'
    rcases max_choice g.maxSeenAllocatedStreamId p with h | h
    · rw [h]; exact hg.seen w'
    · rw [h]; exact fun hw' => .inl (hp.settled.2 w' hw')

theorem advance_frame (positive : Bool) (inst w : ι) (n : ℤ) (g : MultiWriterIdGenerator ι) :
    (advance positive inst w n g).unfinishedIds = g.unfinishedIds ∧
    (advance positive inst w n g).inFlightFetches = g.inFlightFetches ∧
    ∀ w', w' ∈ g.currentPositions → w' ∈ (advance positive inst w n g).currentPositions :=
  ⟨rfl, rfl, fun _ h => (AList.mem_insert _).mpr (.inr h)⟩

/-- Adding freshly drawn IDs preserves the invariant. -/
theorem addStreamIds_inv {streamIds : List ℤ}
    (hids : ∀ i ∈ streamIds, i ≤ l.lastValue ∧ ∀ w, (w, i) ∈ l.allocated → w = inst)
    (hg : GenInv l inst g) (h : addStreamIds streamIds g = some g') : GenInv l inst g' := by
  unfold addStreamIds at h
  rw [Option.map_eq_some_iff] at h
  obtain ⟨last, hlast, rfl⟩ := h
  have hpend : ∀ i ∈ g.unfinishedIds ∪ streamIds,
      i ≤ l.lastValue ∧ ∀ w, (w, i) ∈ l.allocated → w = inst := by
    intro i hi
    rcases mem_union_iff.mp hi with h | h
    · exact hg.unfinished i h
    · exact hids i h
  obtain ⟨hle, hown⟩ := hpend last (max?_eq_some_iff.mp hlast).1
  refine ⟨hg.persisted, hg.positions, hg.owners, hg.known, hg.localPos, max_le hg.seen_le hle,
    ?_, hpend, hg.finishedIds⟩
  intro w
  rcases max_choice g.maxSeenAllocatedStreamId last with h | h
  · rw [h]; exact hg.seen w
  · rw [h]; exact fun hw => .inr (hown w hw)

/-- The invariant does not read `_in_flight_fetches`. -/
theorem inFlightFetches_inv (fs : List ℤ) (hg : GenInv l inst g) :
    GenInv l inst { g with inFlightFetches := fs } :=
  ⟨hg.persisted, hg.positions, hg.owners, hg.known, hg.localPos, hg.seen_le, hg.seen,
    hg.unfinished, hg.finishedIds⟩

end MultiWriterIdGenerator
end Synapse.Storage
