import Synapse.Storage.IdGenerators
import Synapse.Util.Select

/-!
# A stream position never overtakes an unfinished write

The instances of one stream as a system: one `MultiWriterIdGenerator` a name,
one Postgres sequence, and the positions that the writers announce to each
other. A step is one critical section of one instance, or one read of the
sequence, so that every interleaving of the real processes is a run here. In
particular an allocation is four steps (`start`, `draw`, `add`, `drop`), and
anything may happen between any two of them.

`getCurrentToken_safe` is the safety property: whatever is at or below the
current token of any instance, and was allocated to anybody or ever will be, is
finished. The invariant `SysInv` adds to the `GenInv` of every instance the
account of the running allocations: every ID that is allocated and not finished
belongs to a running task of its owner (`held`), and that task keeps it either
in `_unfinished_ids` (`pending`) or above a marker that is still in
`_in_flight_fetches` (`drawn`, `markers`). From it each instance is `Covered`,
which is what the single blocks need.

The writers list may be empty, and then `__init__` gives every instance a
position of its own only; that the instances start from the *same* positions
says in that case that each of them is listed.
-/

namespace Synapse.Storage

open Synapse.Util List
open Multiset (filterMap_cons_none filterMap_cons_some mem_cons mem_cons_of_mem mem_cons_self)
open Function (forall_update_iff update update_eq_self update_of_ne update_self)
open MultiWriterIdGenerator

variable {ι : Type}

/-! ## The two ledger steps -/

variable (l : Ledger ι) (a : ι)

/-- The sequence hands out `ids` to `a`. -/
def Ledger.draw (ids : List ℤ) : Ledger ι :=
  { l with
    lastValue := ids.getLast?.getD l.lastValue
    allocated := l.allocated ++ ids.map fun i => (a, i) }

/-- `a` marks `ids` finished. -/
def Ledger.finish (ids : List ℤ) : Ledger ι :=
  { l with finished := l.finished ++ ids.map fun i => (a, i) }

variable {ids : List ℤ}

theorem lt_getLast_of_pairwise {x : ℤ} (h : (x :: ids).Pairwise (· < ·)) :
    x ≤ ids.getLast?.getD x ∧ ∀ i ∈ ids, x < i ∧ i ≤ ids.getLast?.getD x := by
  obtain ⟨hx, hp⟩ := pairwise_cons.mp h
  cases hl : ids.getLast? with
  | none =>
    rw [getLast?_eq_none_iff] at hl
    subst hl
    exact ⟨le_rfl, by simp⟩
  | some z =>
    exact ⟨(hx z (mem_of_mem_getLast? hl)).le, fun i hi => ⟨hx i hi, le_getLast (hp.imp le_of_lt) hl hi⟩⟩

theorem Ledger.draw_extends (hids : (l.lastValue :: ids).Pairwise (· < ·)) :
    l.Extends (l.draw a ids) := by
  obtain ⟨hle, hlt⟩ := lt_getLast_of_pairwise hids
  refine ⟨hle, fun _ hx => hx, fun x hx => ?_⟩
  rcases mem_append.mp hx with hx | hx
  · exact .inl hx
  · obtain ⟨i, hi, rfl⟩ := mem_map.mp hx
    exact .inr (hlt i hi).1

theorem Ledger.finish_extends (ids : List ℤ) : l.Extends (l.finish a ids) :=
  ⟨le_rfl, fun _ hx => mem_append_left _ hx, fun _ hx => .inl hx⟩

/-! ## The system -/

/-- What is configured alike on every instance of the stream. -/
structure StreamConfig (ι : Type) where
  writers : List ι
  positive : Bool

variable (c : StreamConfig ι)

/-- `if self._writers and self._instance_name not in self._writers: raise`. -/
def StreamConfig.MayWrite (inst : ι) : Prop := c.writers = [] ∨ inst ∈ c.writers

/-- `x` is at or before `y` in the stream; a negative stream runs downwards. -/
def StreamConfig.AtOrBefore (x y : ℤ) : Prop :=
  if c.positive then x ≤ y else y ≤ x

theorem atOrBefore_iff (i p : ℤ) :
    c.AtOrBefore (returnFactor c.positive * i) (returnFactor c.positive * p) ↔ i ≤ p := by
  unfold StreamConfig.AtOrBefore returnFactor
  cases c.positive
  · simp
  · simp

/-- A call of `get_next` and friends, by how far it got. `failed` has raised
inside the `try` and still owes the `finally`; `writing` has returned its IDs
and its transaction neither committed nor rolled back. -/
inductive Task (ι : Type) where
  | fetching (inst : ι) (currentMax : ℤ)
  | drawn (inst : ι) (currentMax : ℤ) (streamIds : List ℤ)
  | added (inst : ι) (currentMax : ℤ) (streamIds : List ℤ)
  | failed (inst : ι) (currentMax : ℤ)
  | writing (inst : ι) (streamIds : List ℤ)

namespace Task

/-- The instance that runs the task. -/
def inst : Task ι → ι
  | fetching a _ => a
  | drawn a _ _ => a
  | added a _ _ => a
  | failed a _ => a
  | writing a _ => a

def streamIds : Task ι → List ℤ
  | fetching _ _ => []
  | drawn _ _ ids => ids
  | added _ _ ids => ids
  | failed _ _ => []
  | writing _ ids => ids

variable [DecidableEq ι] in
/-- The task's entry in `_in_flight_fetches` of `a`. -/
def marker (a : ι) : Task ι → Option ℤ
  | fetching b m => if b = a then some m else none
  | drawn b m _ => if b = a then some m else none
  | added b m _ => if b = a then some m else none
  | failed b m => if b = a then some m else none
  | writing _ _ => none

/-- The IDs have been put into `_unfinished_ids`. -/
def Pending : Task ι → Prop
  | added _ _ _ => True
  | writing _ _ => True
  | _ => False

end Task

variable {tasks rest : Multiset (Task ι)}

theorem mem_of_eq_cons {t : Task ι} (ht : tasks = t ::ₘ rest) : t ∈ tasks ∧ ∀ u ∈ rest, u ∈ tasks := by
  rw [ht]
  exact ⟨mem_cons_self _ _, fun u hu => mem_cons_of_mem hu⟩

/-- Replacing the running task `t` by `v` keeps every ID that `t` held. -/
theorem held_of_replace {t v : Task ι} (ht : tasks = t ::ₘ rest)
    (hinst : v.inst = t.inst) (hids : ∀ i ∈ t.streamIds, i ∈ v.streamIds) :
    ∀ u ∈ tasks, ∀ i ∈ u.streamIds, ∃ u' ∈ v ::ₘ rest, u'.inst = u.inst ∧ i ∈ u'.streamIds := by
  intro u hu i hi
  rw [ht] at hu
  rcases mem_cons.mp hu with rfl | hu
  · exact ⟨v, mem_cons_self _ _, hinst, hids i hi⟩
  · exact ⟨u, mem_cons_of_mem hu, rfl, hi⟩

variable [DecidableEq ι] {rest : Multiset (Task ι)}

/-- A task that keeps its marker keeps its place in `_in_flight_fetches`. -/
theorem filterMap_marker_replace {t t' : Task ι} {b : ι} (h : t'.marker b = t.marker b) :
    (t' ::ₘ rest).filterMap (Task.marker b) = (t ::ₘ rest).filterMap (Task.marker b) := by
  cases hm : t.marker b with
  | none =>
    rw [filterMap_cons_none _ _ hm, filterMap_cons_none _ _ (h.trans hm)]
  | some m =>
    rw [filterMap_cons_some _ _ _ hm, filterMap_cons_some _ _ _ (h.trans hm)]

variable {a : ι} {m : ℤ} {t : Task ι}

/-- Erasing one occurrence of the marker matches dropping the task's entry. -/
theorem filterMap_marker_erase {fs : List ℤ} (hm : t.marker a = some m)
    (h : (t ::ₘ rest).filterMap (Task.marker a) ≤ fs) :
    rest.filterMap (Task.marker a) ≤ (fs.erase m : List ℤ) := by
  rw [filterMap_cons_some _ _ _ hm] at h
  have := Multiset.erase_le_erase m h
  rwa [Multiset.erase_cons_head, Multiset.coe_erase] at this

/-- All instances, the ledger with the shared sequence, the running tasks, the
tokens each writer has returned for itself, and how many of a writer's tokens
each instance has been told. -/
structure Sys (ι : Type) where
  gen : ι → MultiWriterIdGenerator ι
  ledger : Ledger ι
  tasks : Multiset (Task ι)
  announced : ι → List ℤ
  delivered : ι → ι → ℕ

/-- One critical section of one instance, or one read of the sequence. -/
inductive Step (c : StreamConfig ι) : Sys ι → Sys ι → Prop where
  | start (s : Sys ι) (a : ι) (hw : c.MayWrite a) :
    Step c s { s with
      gen := update s.gen a (s.gen a).recordFetch.2
      tasks := .fetching a (s.gen a).recordFetch.1 ::ₘ s.tasks }
  -- every `nextval` is larger than all earlier ones; gaps are allowed
  | draw (s : Sys ι) (a : ι) (m : ℤ) (rest : Multiset (Task ι)) (ids : List ℤ)
    (ht : s.tasks = .fetching a m ::ₘ rest)
    (hids : (s.ledger.lastValue :: ids).Pairwise (· < ·)) :
    Step c s { s with
      ledger := s.ledger.draw a ids
      tasks := .drawn a m ids ::ₘ rest }
  | fail (s : Sys ι) (a : ι) (m : ℤ) (rest : Multiset (Task ι))
    (ht : s.tasks = .fetching a m ::ₘ rest) :
    Step c s { s with tasks := .failed a m ::ₘ rest }
  | add (s : Sys ι) (a : ι) (m : ℤ) (ids : List ℤ) (rest : Multiset (Task ι))
    (g' : MultiWriterIdGenerator ι) (ht : s.tasks = .drawn a m ids ::ₘ rest)
    (hg : addStreamIds ids (s.gen a) = some g') :
    Step c s { s with
      gen := update s.gen a g'
      tasks := .added a m ids ::ₘ rest }
  | addRaises (s : Sys ι) (a : ι) (m : ℤ) (ids : List ℤ) (rest : Multiset (Task ι))
    (ht : s.tasks = .drawn a m ids ::ₘ rest) (hg : addStreamIds ids (s.gen a) = none) :
    Step c s { s with tasks := .failed a m ::ₘ rest }
  | drop (s : Sys ι) (a : ι) (m : ℤ) (ids : List ℤ) (rest : Multiset (Task ι))
    (ht : s.tasks = .added a m ids ::ₘ rest) :
    Step c s { s with
      gen := update s.gen a ((s.gen a).dropFetch m)
      tasks := .writing a ids ::ₘ rest }
  | dropFailed (s : Sys ι) (a : ι) (m : ℤ) (rest : Multiset (Task ι))
    (ht : s.tasks = .failed a m ::ₘ rest) :
    Step c s { s with
      gen := update s.gen a ((s.gen a).dropFetch m)
      tasks := rest }
  -- commit and rollback alike
  | mark (s : Sys ι) (a : ι) (ids : List ℤ) (rest : Multiset (Task ι))
    (g' : MultiWriterIdGenerator ι) (ht : s.tasks = .writing a ids ::ₘ rest)
    (hg : markIdsAsFinished a ids (s.gen a) = some g') :
    Step c s { s with
      gen := update s.gen a g'
      ledger := s.ledger.finish a ids
      tasks := rest }
  | markRaises (s : Sys ι) (a : ι) (ids : List ℤ) (rest : Multiset (Task ι))
    (ht : s.tasks = .writing a ids ::ₘ rest)
    (hg : markIdsAsFinished a ids (s.gen a) = none) :
    Step c s { s with tasks := rest }
  | announce (s : Sys ι) (a : ι) :
    Step c s { s with
      announced := update s.announced a
        (s.announced a ++ [getCurrentTokenForWriter c.positive a a (s.gen a)]) }
  | deliver (s : Sys ι) (b a : ι) (k : ℕ) (token : ℤ) (hk : s.delivered b a ≤ k)
    (htok : (s.announced a)[k]? = some token) :
    Step c s { s with
      gen := update s.gen b (advance c.positive b a token (s.gen b))
      delivered := update s.delivered b
        (update (s.delivered b) a (k + 1)) }

/-- What the instances have loaded. -/
structure Loaded (ι : Type) where
  positions : Dict ι ℤ
  persistedUpto : ℤ
  known : List ℤ

/-- All instances have started from the same loaded positions, and no write is
in flight. The bounds by the sequence are what `check_consistency` checks;
"stream IDs are strictly greater than 0" is the code's own assumption. Who may
write has a loaded position: `writers` is "a list of known writers to use to
populate current positions on startup". -/
structure Started (c : StreamConfig ι) (ld : Loaded ι) (s : Sys ι) : Prop where
  gen : ∀ a, s.gen a = ofLoaded ld.positions ld.persistedUpto ld.known
  writers : ∀ a, c.MayWrite a → a ∈ ld.positions
  positions : ∀ w p, ld.positions.lookup w = some p → 0 < p ∧ p ≤ s.ledger.lastValue
  persisted : 0 < ld.persistedUpto ∧ ld.persistedUpto ≤ s.ledger.lastValue
  known : ∀ v ∈ ld.known, v ≤ s.ledger.lastValue
  quiet : ∀ x ∈ s.ledger.allocated, x ∈ s.ledger.finished ∧ x.2 ≤ s.ledger.lastValue
  tasks : s.tasks = 0
  announced : ∀ a, s.announced a = []

structure SysInv (c : StreamConfig ι) (s : Sys ι) : Prop where
  lastValue_nonneg : 0 ≤ s.ledger.lastValue
  allocated_le : ∀ x ∈ s.ledger.allocated, x.2 ≤ s.ledger.lastValue
  gen : ∀ a, GenInv s.ledger a (s.gen a)
  writers : ∀ a w, c.MayWrite w → w ∈ (s.gen a).currentPositions
  owner : ∀ t ∈ s.tasks, c.MayWrite t.inst
  held : ∀ w i, (w, i) ∈ s.ledger.allocated → (w, i) ∉ s.ledger.finished →
    ∃ t ∈ s.tasks, t.inst = w ∧ i ∈ t.streamIds
  drawn : ∀ a m ids, Task.drawn a m ids ∈ s.tasks → ∀ i ∈ ids, m < i
  fetching : ∀ a m, Task.fetching a m ∈ s.tasks → m ≤ s.ledger.lastValue
  ids : ∀ t ∈ s.tasks, ∀ i ∈ t.streamIds,
    i ≤ s.ledger.lastValue ∧ ∀ w, (w, i) ∈ s.ledger.allocated → w = t.inst
  pending : ∀ t ∈ s.tasks, t.Pending → ∀ i ∈ t.streamIds,
    (t.inst, i) ∈ s.ledger.finished ∨ i ∈ (s.gen t.inst).unfinishedIds
  markers : ∀ a, s.tasks.filterMap (Task.marker a) ≤ (s.gen a).inFlightFetches
  announced : ∀ a, ∀ token ∈ s.announced a,
    ∃ p, token = returnFactor c.positive * p ∧ Announced s.ledger a p

/-! ## Consequences of the invariant -/

variable {c : StreamConfig ι} {s : Sys ι}

/-- A marker of a running task is in `_in_flight_fetches`. -/
theorem SysInv.marker_mem (h : SysInv c s) (ht : t ∈ s.tasks) (hm : t.marker a = some m) :
    m ∈ (s.gen a).inFlightFetches :=
  Multiset.mem_of_le (h.markers a) ((Multiset.mem_filterMap _ _).mpr ⟨t, ht, hm⟩)

/-- Every instance is `Covered`: a task has either put its IDs into
`_unfinished_ids`, or drawn them above a marker it still holds. -/
theorem SysInv.covered (h : SysInv c s) (a : ι) : Covered s.ledger a (s.gen a) := by
  intro i hi hnf
  obtain ⟨t, ht, rfl, hit⟩ := h.held a i hi hnf
  cases t with
  | fetching b m => exact absurd hit (by simp [Task.streamIds])
  | failed b m => exact absurd hit (by simp [Task.streamIds])
  | drawn b m ids =>
    exact .inr ⟨m, h.marker_mem ht (if_pos rfl), h.drawn b m ids ht i hit⟩
  | added b m ids =>
    rcases h.pending _ ht trivial i hit with hf | hu
    · exact absurd hf hnf
    · exact .inl hu
  | writing b ids =>
    rcases h.pending _ ht trivial i hit with hf | hu
    · exact absurd hf hnf
    · exact .inl hu

/-- Whoever holds an unfinished ID has a position on every instance. -/
theorem SysInv.owner_known (h : SysInv c s) {b w : ι} {i : ℤ} (hi : (w, i) ∈ s.ledger.allocated)
    (hnf : (w, i) ∉ s.ledger.finished) : w ∈ (s.gen b).currentPositions := by
  obtain ⟨t, ht, rfl, -⟩ := h.held w i hi hnf
  exact h.writers b _ (h.owner t ht)

/-! ## One lemma a step -/

variable {g' : MultiWriterIdGenerator ι}

/-- Shared by the steps that leave the ledger alone and change the generator of
`a` and the tasks. -/
theorem SysInv.of_update (h : SysInv c s) {T : Multiset (Task ι)} (hg' : GenInv s.ledger a g')
    (hkeys : ∀ w, w ∈ (s.gen a).currentPositions → w ∈ g'.currentPositions)
    (hpend : ∀ i ∈ (s.gen a).unfinishedIds, i ∈ g'.unfinishedIds)
    (hmark : T.filterMap (Task.marker a) ≤ g'.inFlightFetches)
    (hmark' : ∀ b, b ≠ a → T.filterMap (Task.marker b) ≤ s.tasks.filterMap (Task.marker b))
    (hheld : ∀ t ∈ s.tasks, ∀ i ∈ t.streamIds, ∃ t' ∈ T, t'.inst = t.inst ∧ i ∈ t'.streamIds)
    (htask : ∀ t ∈ T, t ∈ s.tasks ∨ (t.inst = a ∧ c.MayWrite a ∧
      (∀ b m ids, t = .drawn b m ids → ∀ i ∈ ids, m < i) ∧
      (∀ b m, t = .fetching b m → m ≤ s.ledger.lastValue) ∧
      (∀ i ∈ t.streamIds, ∃ t₀ ∈ s.tasks, t₀.inst = a ∧ i ∈ t₀.streamIds) ∧
      (t.Pending → ∀ i ∈ t.streamIds, i ∈ g'.unfinishedIds ∨ (a, i) ∈ s.ledger.finished))) :
    SysInv c { s with gen := update s.gen a g', tasks := T } where
  lastValue_nonneg := h.lastValue_nonneg
  allocated_le := h.allocated_le
  gen := (forall_update_iff s.gen (p := fun b g => GenInv s.ledger b g)).mpr
    ⟨hg', fun b _ => h.gen b⟩
  writers := (forall_update_iff s.gen
      (p := fun _ g => ∀ w, c.MayWrite w → w ∈ g.currentPositions)).mpr
    ⟨fun w hw => hkeys w (h.writers a w hw), fun b _ => h.writers b⟩
  owner := by
    intro t ht
    rcases htask t ht with ho | ⟨rfl, hw, -⟩
    · exact h.owner t ho
    · exact hw
  held := by
    intro w i hi hnf
    obtain ⟨t, ht, rfl, hit⟩ := h.held w i hi hnf
    exact hheld t ht i hit
  drawn := by
    intro b m ids ht
    rcases htask _ ht with ho | ⟨-, -, hd, -⟩
    · exact h.drawn b m ids ho
    · exact hd b m ids rfl
  fetching := by
    intro b m ht
    rcases htask _ ht with ho | ⟨-, -, -, hf, -⟩
    · exact h.fetching b m ho
    · exact hf b m rfl
  ids := by
    intro t ht i hi
    rcases htask t ht with ho | ⟨rfl, -, -, -, hids, -⟩
    · exact h.ids t ho i hi
    · obtain ⟨t₀, ht₀, hinst, hit₀⟩ := hids i hi
      obtain ⟨hle, hw⟩ := h.ids t₀ ht₀ i hit₀
      exact ⟨hle, fun w hwi => (hw w hwi).trans hinst⟩
  pending := by
    intro t ht hp i hi
    dsimp only
    rcases htask t ht with ho | ⟨rfl, -, -, -, -, hpen⟩
    · by_cases hta : t.inst = a
      · rw [hta, update_self]
        rcases h.pending t ho hp i hi with hf | hu
        · exact .inl (hta ▸ hf)
        · exact .inr (hpend i (hta ▸ hu))
      · rw [update_of_ne hta]
        exact h.pending t ho hp i hi
    · rw [update_self]
      exact (hpen hp i hi).symm
  markers := by
    intro b
    dsimp only
    by_cases hb : b = a
    · subst hb
      rw [update_self]
      exact hmark
    · rw [update_of_ne hb]
      exact le_trans (hmark' b hb) (h.markers b)
  announced := h.announced

theorem SysInv.start (h : SysInv c s) (hw : c.MayWrite a) : SysInv c { s with
      gen := update s.gen a (s.gen a).recordFetch.2
      tasks := .fetching a (s.gen a).recordFetch.1 ::ₘ s.tasks } := by
  refine h.of_update (inFlightFetches_inv _ (h.gen a)) (fun _ => id) (fun _ => id) ?_ ?_ ?_ ?_
  · have hm : Task.marker a (.fetching a (s.gen a).recordFetch.1) =
        some (s.gen a).recordFetch.1 := if_pos rfl
    rw [filterMap_cons_some _ _ _ hm]
    exact Multiset.cons_le_cons _ (h.markers a)
  · intro b hb
    have hm : Task.marker b (.fetching a (s.gen a).recordFetch.1) = none := if_neg (fun he => hb he.symm)
    rw [filterMap_cons_none _ _ hm]
  · exact fun t ht i hi => ⟨t, mem_cons_of_mem ht, rfl, hi⟩
  · intro t ht
    rcases mem_cons.mp ht with rfl | ht
    · refine .inr ⟨rfl, hw, by simp, ?_, by simp [Task.streamIds], False.elim⟩
      intro b m he
      cases he
      exact (h.gen a).seen_le
    · exact .inl ht

section
variable (h : SysInv c s)
include h

/-- A read of the sequence: what is drawn is larger than everything any
instance has ever seen, so that no position is touched. -/
theorem SysInv.draw (ht : s.tasks = .fetching a m ::ₘ rest)
    (hids : (s.ledger.lastValue :: ids).Pairwise (· < ·)) : SysInv c { s with
      ledger := s.ledger.draw a ids
      tasks := .drawn a m ids ::ₘ rest } := by
  have hext := s.ledger.draw_extends a hids
  obtain ⟨hlast, hlt⟩ := lt_getLast_of_pairwise hids
  obtain ⟨hmem, hrest⟩ := mem_of_eq_cons ht
  have hm := h.fetching a m hmem
  have hnew : ∀ w i, (w, i) ∈ (s.ledger.draw a ids).allocated →
      (w, i) ∈ s.ledger.allocated ∨ (w = a ∧ i ∈ ids) := by
    intro w i hi
    rcases mem_append.mp hi with ho | hn
    · exact .inl ho
    · obtain ⟨j, hj, he⟩ := mem_map.mp hn
      cases he
      exact .inr ⟨rfl, hj⟩
  have hheld : ∀ w i, (w, i) ∈ (s.ledger.draw a ids).allocated → (w, i) ∉ s.ledger.finished →
      ∃ t ∈ Task.drawn a m ids ::ₘ rest, t.inst = w ∧ i ∈ t.streamIds := by
    intro w i hi hnf
    rcases hnew w i hi with ho | ⟨rfl, hj⟩
    · obtain ⟨t, ht', rfl, hit⟩ := h.held w i ho hnf
      exact held_of_replace (v := Task.drawn a m ids) ht rfl (by simp [Task.streamIds]) t ht' i hit
    · exact ⟨_, mem_cons_self _ _, rfl, hj⟩
  have howner : ∀ t ∈ Task.drawn a m ids ::ₘ rest, c.MayWrite t.inst := by
    intro t ht'
    rcases mem_cons.mp ht' with rfl | hr
    · exact h.owner (.fetching a m) hmem
    · exact h.owner t (hrest t hr)
  constructor
  · exact le_trans h.lastValue_nonneg hlast
  · rintro ⟨w, i⟩ hi
    rcases hnew w i hi with ho | ⟨rfl, hj⟩
    · exact le_trans (h.allocated_le _ ho) hlast
    · exact (hlt i hj).2
  · intro b
    refine (h.gen b).mono hext fun w i hi hnf => ?_
    obtain ⟨t, ht', rfl, -⟩ := hheld w i hi hnf
    exact h.writers b _ (howner t ht')
  · exact h.writers
  · exact howner
  · exact hheld
  · intro b m' ids' hd i hi
    rcases mem_cons.mp hd with he | hr
    · cases he
      exact lt_of_le_of_lt hm (hlt i hi).1
    · exact h.drawn b m' ids' (hrest _ hr) i hi
  · intro b m' hf
    rcases mem_cons.mp hf with he | hr
    · cases he
    · exact le_trans (h.fetching b m' (hrest _ hr)) hlast
  · intro t ht' i hi
    rcases mem_cons.mp ht' with rfl | hr
    · refine ⟨(hlt i hi).2, fun w hw => ?_⟩
      rcases hnew w i hw with ho | ⟨rfl, -⟩
      · -- an older allocation of the same ID would lie above the sequence
        exact absurd (h.allocated_le _ ho) (not_le.mpr (hlt i hi).1)
      · rfl
    · obtain ⟨hle, hw⟩ := h.ids t (hrest t hr) i hi
      refine ⟨le_trans hle hlast, fun w hwi => ?_⟩
      rcases hnew w i hwi with ho | ⟨rfl, hj⟩
      · exact hw w ho
      · exact absurd hle (not_le.mpr (hlt i hj).1)
  · intro t ht' hp i hi
    rcases mem_cons.mp ht' with rfl | hr
    · exact absurd hp (by simp [Task.Pending])
    · exact h.pending t (hrest t hr) hp i hi
  · intro b
    have hb := h.markers b
    rw [ht] at hb
    exact le_of_eq_of_le (filterMap_marker_replace (t := .fetching a m) rfl) hb
  · intro b token hb
    obtain ⟨p, hp, hann⟩ := h.announced b token hb
    exact ⟨p, hp, hann.mono hext⟩

/-- A task that changes its stage and keeps its IDs. -/
theorem SysInv.restage {t v : Task ι} (ht : s.tasks = t ::ₘ rest)
    (hinst : v.inst = t.inst) (hids : v.streamIds = t.streamIds)
    (hstage : ∀ b m, v ≠ .fetching b m ∧ ∀ js, v ≠ .drawn b m js)
    (hmark : ∀ b, b ≠ t.inst → v.marker b = t.marker b)
    (hflight : (v ::ₘ rest).filterMap (Task.marker t.inst) ≤ g'.inFlightFetches)
    (hg' : GenInv s.ledger t.inst g')
    (hkeys : ∀ w, w ∈ (s.gen t.inst).currentPositions → w ∈ g'.currentPositions)
    (hpend : ∀ i ∈ (s.gen t.inst).unfinishedIds, i ∈ g'.unfinishedIds)
    (hput : v.Pending → ∀ i ∈ t.streamIds, i ∈ g'.unfinishedIds ∨ (t.inst, i) ∈ s.ledger.finished) :
    SysInv c { s with gen := update s.gen t.inst g', tasks := v ::ₘ rest } := by
  obtain ⟨hmem, hrest⟩ := mem_of_eq_cons ht
  refine h.of_update hg' hkeys hpend hflight ?_ ?_ ?_
  · intro b hb
    rw [ht]
    exact le_of_eq (filterMap_marker_replace (hmark b hb))
  · exact held_of_replace ht hinst (fun i hi => hids ▸ hi)
  · intro u hu
    rcases mem_cons.mp hu with rfl | hu
    · refine .inr ⟨hinst, h.owner t hmem, fun b m js he => absurd he ((hstage b m).2 js),
        fun b m he => absurd he (hstage b m).1, fun i hi => ⟨t, hmem, rfl, hids ▸ hi⟩,
        fun hp i hi => hput hp i (hids ▸ hi)⟩
    · exact .inl (hrest u hu)

/-- The second block of an allocation: the IDs move from above the marker into
`_unfinished_ids`. -/
theorem SysInv.add (ht : s.tasks = .drawn a m ids ::ₘ rest)
    (hg : addStreamIds ids (s.gen a) = some g') : SysInv c { s with
      gen := update s.gen a g'
      tasks := .added a m ids ::ₘ rest } := by
  have hmem := (mem_of_eq_cons ht).1
  have hg' := addStreamIds_inv (h.ids _ hmem) (h.gen a) hg
  obtain ⟨last, -, rfl⟩ := Option.map_eq_some_iff.mp hg
  refine h.restage ht rfl rfl (by simp) ?_ ?_ hg'
    (fun _ => id) (fun i hi => mem_union_iff.mpr (.inl hi)) ?_
  · exact fun b hb => rfl
  · have hb := h.markers a
    rw [ht] at hb
    exact le_of_eq_of_le (filterMap_marker_replace (t := .drawn a m ids) rfl) hb
  · exact fun _ i hi => .inl (mem_union_iff.mpr (.inr hi))

/-- The `finally` of an allocation that succeeded. -/
theorem SysInv.drop (ht : s.tasks = .added a m ids ::ₘ rest) : SysInv c { s with
      gen := update s.gen a ((s.gen a).dropFetch m)
      tasks := .writing a ids ::ₘ rest } := by
  have hmem := (mem_of_eq_cons ht).1
  refine h.restage ht rfl rfl (by simp) ?_ ?_
    (inFlightFetches_inv _ (h.gen a)) (fun _ => id) (fun _ => id) ?_
  · exact fun b hb => (if_neg (fun he => hb he.symm)).symm
  · rw [filterMap_cons_none _ _ rfl]
    exact filterMap_marker_erase (t := .added a m ids) (if_pos rfl) (ht ▸ h.markers a)
  · intro _ i hi
    exact (h.pending _ hmem trivial i hi).symm

/-- A task without IDs may leave, with its marker. -/
theorem SysInv.leave (ht : s.tasks = t ::ₘ rest) (hids : t.streamIds = [])
    (hg' : GenInv s.ledger t.inst g')
    (hkeys : ∀ w, w ∈ (s.gen t.inst).currentPositions → w ∈ g'.currentPositions)
    (hpend : ∀ i ∈ (s.gen t.inst).unfinishedIds, i ∈ g'.unfinishedIds)
    (hflight : rest.filterMap (Task.marker t.inst) ≤ g'.inFlightFetches) :
    SysInv c { s with gen := update s.gen t.inst g', tasks := rest } := by
  refine h.of_update hg' hkeys hpend hflight ?_ ?_ ?_
  · intro b _
    rw [ht]
    exact Multiset.filterMap_le_filterMap _ (Multiset.le_cons_self _ _)
  · intro u hu i hi
    rw [ht] at hu
    rcases mem_cons.mp hu with rfl | hu
    · rw [hids] at hi
      exact nomatch hi
    · exact ⟨u, hu, rfl, hi⟩
  · exact fun u hu => .inl ((mem_of_eq_cons ht).2 u hu)

theorem SysInv.dropFailed (ht : s.tasks = .failed a m ::ₘ rest) : SysInv c { s with
      gen := update s.gen a ((s.gen a).dropFetch m)
      tasks := rest } := by
  refine h.leave ht rfl (inFlightFetches_inv _ (h.gen a)) (fun _ => id)
    (fun _ => id) ?_
  exact filterMap_marker_erase (t := .failed a m) (if_pos rfl) (ht ▸ h.markers a)

/-- An allocation that raises inside the `try`: it held no IDs. -/
theorem SysInv.failed (ht : s.tasks = t ::ₘ rest) (hids : t.streamIds = []) (hinst : t.inst = a)
    (hmark : ∀ b, Task.marker b (.failed a m) = t.marker b) :
    SysInv c { s with tasks := .failed a m ::ₘ rest } := by
  subst hinst
  have hb := h.markers t.inst
  rw [ht] at hb
  have := h.restage (v := .failed t.inst m) ht rfl hids.symm (by simp) (fun b _ => hmark b)
    (le_of_eq_of_le (filterMap_marker_replace (hmark _)) hb) (h.gen t.inst)
    (fun _ => id) (fun _ => id) (fun hp => absurd hp (by simp [Task.Pending]))
  rwa [update_eq_self] at this

/-- `_mark_ids_as_finished` on commit or rollback. -/
theorem SysInv.mark (ht : s.tasks = .writing a ids ::ₘ rest)
    (hg : markIdsAsFinished a ids (s.gen a) = some g') : SysInv c { s with
      gen := update s.gen a g'
      ledger := s.ledger.finish a ids
      tasks := rest } := by
  have hext := s.ledger.finish_extends a ids
  obtain ⟨hmem, hrest⟩ := mem_of_eq_cons ht
  have hfin : ∀ i ∈ ids, (a, i) ∈ (s.ledger.finish a ids).finished := fun i hi =>
    mem_append_right _ (mem_map.mpr ⟨i, hi, rfl⟩)
  have hset : ∀ i ∈ ids, (s.ledger.finish a ids).Settled i := by
    intro i hi
    obtain ⟨hle, hw⟩ := h.ids _ hmem i hi
    refine ⟨hle, fun w hwi => ?_⟩
    obtain rfl : w = a := hw w hwi
    exact hfin i hi
  -- all IDs of the task that ends are finished, so it held none of the others
  have hheld : ∀ w i, (w, i) ∈ s.ledger.allocated → (w, i) ∉ (s.ledger.finish a ids).finished →
      ∃ t ∈ rest, t.inst = w ∧ i ∈ t.streamIds := by
    intro w i hi hnf
    obtain ⟨t, ht', rfl, hit⟩ := h.held w i hi (fun hf => hnf (hext.finished_sub _ hf))
    rw [ht] at ht'
    rcases mem_cons.mp ht' with rfl | hr
    · exact absurd (hfin i hit) hnf
    · exact ⟨t, hr, rfl, hit⟩
  have hgen : ∀ b, GenInv (s.ledger.finish a ids) b (s.gen b) := fun b =>
    (h.gen b).mono hext fun w i hi hnf =>
      h.owner_known hi (fun hf => hnf (hext.finished_sub _ hf))
  have hcov : Covered (s.ledger.finish a ids) a (s.gen a) := fun i hi hnf =>
    h.covered a i hi (fun hf => hnf (hext.finished_sub _ hf))
  have hinv := markIdsAsFinished_inv (l := s.ledger.finish a ids) h.lastValue_nonneg hset hfin
    (h.writers a a (h.owner _ hmem)) (hgen a) hcov hg
  obtain ⟨hun, hfl, hkeys⟩ := markIdsAsFinished_frame hg
  constructor
  · exact h.lastValue_nonneg
  · exact h.allocated_le
  · exact (forall_update_iff s.gen
      (p := fun b g => GenInv (s.ledger.finish a ids) b g)).mpr ⟨hinv, fun b _ => hgen b⟩
  · exact (forall_update_iff s.gen
        (p := fun _ g => ∀ w, c.MayWrite w → w ∈ g.currentPositions)).mpr
      ⟨fun w hw => hkeys w (h.writers a w hw), fun b _ => h.writers b⟩
  · exact fun t hr => h.owner t (hrest t hr)
  · exact hheld
  · exact fun b m js hd => h.drawn b m js (hrest _ hd)
  · exact fun b m hf => h.fetching b m (hrest _ hf)
  · exact fun t hr => h.ids t (hrest t hr)
  · intro t hr hp i hi
    dsimp only
    rcases h.pending t (hrest t hr) hp i hi with hf | hu
    · exact .inl (hext.finished_sub _ hf)
    · by_cases hta : t.inst = a
      · rw [hta] at hu ⊢
        by_cases hin : i ∈ ids
        · exact .inl (hfin i hin)
        · rw [update_self, hun]
          exact .inr (mem_filter.mpr ⟨hu, by simpa using hin⟩)
      · rw [update_of_ne hta]
        exact .inr hu
  · intro b
    have hb := h.markers b
    rw [ht, filterMap_cons_none _ _ rfl] at hb
    dsimp only
    by_cases hba : b = a
    · subst hba
      rw [update_self, hfl]
      exact hb
    · rw [update_of_ne hba]
      exact hb
  · intro b token hb
    obtain ⟨p, hp, hann⟩ := h.announced b token hb
    exact ⟨p, hp, hann.mono hext⟩

/-- A writer reads its own token: what it announces is its local maximum. -/
theorem SysInv.announce (a : ι) : SysInv c { s with
      announced := update s.announced a
        (s.announced a ++ [getCurrentTokenForWriter c.positive a a (s.gen a)]) } := by
  refine ⟨h.lastValue_nonneg, h.allocated_le, h.gen, h.writers, h.owner, h.held, h.drawn,
    h.fetching, h.ids, h.pending, h.markers, ?_⟩
  intro b token hb
  dsimp only at hb
  by_cases hba : b = a
  · subst hba
    rw [update_self] at hb
    rcases mem_append.mp hb with ho | hn
    · exact h.announced b token ho
    · have htok : token = getCurrentTokenForWriter c.positive b b (s.gen b) := by simpa using hn
      rw [getCurrentTokenForWriter, if_pos rfl] at htok
      exact ⟨_, htok, (h.gen b).localPos⟩
  · rw [update_of_ne hba] at hb
    exact h.announced b token hb

/-- An announced token reaches an instance. -/
theorem SysInv.deliver {a b : ι} {token : ℤ} (htok : token ∈ s.announced a) (delivered' : ι → ι → ℕ) :
    SysInv c { s with
      gen := update s.gen b (advance c.positive b a token (s.gen b))
      delivered := delivered' } := by
  obtain ⟨p, rfl, hann⟩ := h.announced a token htok
  have hinv : GenInv s.ledger b (advance c.positive b a (returnFactor c.positive * p) (s.gen b)) :=
    advance_inv h.lastValue_nonneg hann (h.gen b) (h.covered b)
  obtain ⟨hun, hfl, hkeys⟩ := advance_frame c.positive b a (returnFactor c.positive * p) (s.gen b)
  have := h.of_update hinv hkeys (fun i hi => hun ▸ hi)
    (by rw [hfl]; exact h.markers b) (fun _ _ => le_rfl) (fun t ht i hi => ⟨t, ht, rfl, hi⟩)
    (fun t ht => .inl ht)
  exact ⟨this.lastValue_nonneg, this.allocated_le, this.gen, this.writers, this.owner,
    this.held, this.drawn, this.fetching, this.ids, this.pending, this.markers, this.announced⟩

end

/-! ## Runs -/

variable {s s' : Sys ι}

theorem Step.inv (hstep : Step c s s') (h : SysInv c s) : SysInv c s' := by
  cases hstep with
  | start a hw => exact h.start hw
  | draw a m rest ids ht hids => exact h.draw ht hids
  | fail a m rest ht => exact h.failed ht rfl rfl (fun _ => rfl)
  | add a m ids rest g' ht hg => exact h.add ht hg
  | addRaises a m ids rest ht hg =>
    exact h.failed ht (addStreamIds_none hg) rfl (fun _ => rfl)
  | drop a m ids rest ht => exact h.drop ht
  | dropFailed a m rest ht => exact h.dropFailed ht
  | mark a ids rest g' ht hg => exact h.mark ht hg
  | markRaises a ids rest ht hg =>
    have hb := h.markers a
    rw [ht, filterMap_cons_none _ _ rfl] at hb
    have := h.leave ht (markIdsAsFinished_none hg) (h.gen a)
      (fun _ => id) (fun _ => id) hb
    rwa [Task.inst, update_eq_self] at this
  | announce a => exact h.announce a
  | deliver b a k token hk htok => exact h.deliver (mem_of_getElem? htok) _

theorem Step.ledger_extends (hstep : Step c s s') : s.ledger.Extends s'.ledger := by
  cases hstep with
  | draw a m rest ids ht hids => exact s.ledger.draw_extends a hids
  | mark a ids rest g' ht hg => exact s.ledger.finish_extends a ids
  | _ => exact Ledger.Extends.refl _

theorem run_inv (h : SysInv c s) (hrun : Relation.ReflTransGen (Step c) s s') : SysInv c s' := by
  induction hrun with
  | refl => exact h
  | tail _ hstep ih => exact hstep.inv ih

theorem run_ledger_extends (hrun : Relation.ReflTransGen (Step c) s s') : s.ledger.Extends s'.ledger := by
  induction hrun with
  | refl => exact Ledger.Extends.refl _
  | tail _ hstep ih => exact ih.trans hstep.ledger_extends

section
variable {ld : Loaded ι} (h : Started c ld s)
include h

/-- The maximum that `__init__` starts from is within the sequence. -/
theorem Started.maxSeen_le : max ((ld.positions.entries.map (·.2)).max?.getD 1) ld.persistedUpto
      ≤ s.ledger.lastValue := by
  refine max_le ?_ h.persisted.2
  rcases getD_max?_cases (ld.positions.entries.map (·.2)) 1 with ⟨_, hmax⟩ | ⟨hmem, _⟩
  · rw [hmax]
    exact h.persisted.1.trans_le h.persisted.2
  · obtain ⟨⟨w, q⟩, hmem, heq⟩ := mem_map.mp hmem
    rw [← heq]
    exact (h.positions w q (AList.mem_lookup_iff.mpr hmem)).2

/-- At the start everything allocated is finished, so that every value within
the sequence is safe. -/
theorem Started.safe {p : ℤ} (hp : p ≤ s.ledger.lastValue) : s.ledger.Safe p :=
  ⟨hp, fun _ _ hi _ => (h.quiet _ hi).1⟩

theorem Started.inv : SysInv c s := by
  have hgen : ∀ a, GenInv s.ledger a (ofLoaded ld.positions ld.persistedUpto ld.known) := by
    intro a
    have hmax := h.safe h.maxSeen_le
    refine ⟨h.safe h.persisted.2, ?_, ?_, fun v hv => (h.safe (h.known v hv)).settled, ?_,
      h.maxSeen_le, fun w hw => .inl (hmax.settled.2 w hw), by simp [ofLoaded], by simp [ofLoaded]⟩
    · intro w p hp
      obtain ⟨hpos, hle⟩ := h.positions w p hp
      exact ⟨hpos, (h.safe hle).done w, (h.safe hle).settled⟩
    · exact fun w i hi hnf => absurd (h.quiet _ hi).1 hnf
    · exact ⟨lt_max_of_lt_right h.persisted.1, hmax.done a, hmax.settled⟩
  have hnone : ∀ t, t ∉ s.tasks := by
    rw [h.tasks]
    exact fun t => Multiset.notMem_zero t
  refine ⟨?_, fun x hx => (h.quiet x hx).2, fun a => h.gen a ▸ hgen a, ?_,
    fun t ht => absurd ht (hnone t), fun w i hi hnf => absurd (h.quiet _ hi).1 hnf,
    fun a m ids ht => absurd ht (hnone _), fun a m ht => absurd ht (hnone _),
    fun t ht => absurd ht (hnone t), fun t ht => absurd ht (hnone t), ?_, ?_⟩
  · have := h.persisted
    omega
  · intro a w hw
    rw [h.gen a]
    exact h.writers w hw
  · intro a
    rw [h.tasks]
    exact Multiset.zero_le _
  · intro a token htok
    rw [h.announced a] at htok
    exact nomatch htok

end

/-- **Safety of the multi-writer position.** In every state `s` that a system
started from common positions can reach, whatever lies at or before the current
token of an instance `a` and is allocated now, or in any continuation `s'`, is
already marked finished by its owner `w`. -/
theorem getCurrentToken_safe {c : StreamConfig ι} {ld : Loaded ι} {s₀ s s' : Sys ι}
    (h₀ : Started c ld s₀) (hs : Relation.ReflTransGen (Step c) s₀ s)
    (hs' : Relation.ReflTransGen (Step c) s s') (a w : ι) (i : ℤ) (hi : (w, i) ∈ s'.ledger.allocated)
    (hle : c.AtOrBefore (returnFactor c.positive * i) (getCurrentToken c.positive (s.gen a))) :
    (w, i) ∈ s.ledger.finished := by
  have hsafe := ((run_inv h₀.inv hs).gen a).persisted
  have hle := (atOrBefore_iff c i _).mp hle
  rcases (run_ledger_extends hs').allocated_new _ hi with hold | hnew
  · exact hsafe.2 w i hold hle
  · -- allocated after `s`: above the sequence, and so above the position
    have := hsafe.1
    omega

/-- Two writers at position 1 of an empty stream. -/
def twoWriters : Sys ℕ where
  gen := fun _ => ofLoaded ((AList.singleton 0 1).insert 1 1) 1 []
  ledger := { lastValue := 1, allocated := [], finished := [] }
  tasks := 0
  announced := fun _ => []
  delivered := fun _ _ => 0

theorem twoWriters_started : Started { writers := [0, 1], positive := true }
      { positions := (AList.singleton 0 1).insert 1 1, persistedUpto := 1, known := [] }
      twoWriters := by
  refine ⟨fun _ => rfl, ?_, ?_, by decide, by simp, by simp [twoWriters], rfl, fun _ => rfl⟩
  · rintro a (hw | hw)
    · exact nomatch hw
    · have : a = 0 ∨ a = 1 := by simpa using hw
      rcases this with rfl | rfl
      · decide
      · decide
  · intro w p hp
    rcases Dict.lookup_insert_cases hp with ⟨-, rfl⟩ | ⟨-, hp'⟩
    · decide
    · have hmem := AList.mem_lookup_iff.mp hp'
      rw [AList.singleton_entries, mem_singleton] at hmem
      cases hmem
      decide

/-- The first of them writes ID 2: its own finished ID is directly above the
common position, so that it steps over it although the other writer is silent. -/
theorem twoWriters_run : ∃ s, Relation.ReflTransGen
      (Step { writers := [0, 1], positive := true }) twoWriters s ∧
    (0, 2) ∈ s.ledger.allocated ∧ getCurrentToken true (s.gen 0) = 2 := by
  refine ⟨_, .tail (.tail (.tail (.tail (.tail .refl (.start _ 0 (.inr (by simp))))
    (.draw _ 0 1 0 [2] rfl (by decide)))
    (.add _ 0 1 [2] 0 _ rfl rfl))
    (.drop _ 0 1 [2] 0 rfl))
    (.mark _ 0 [2] 0 _ rfl rfl), ?_, ?_⟩
  · decide
  · rfl

theorem getCurrentToken_safe_twoWriters : ∃ s, Relation.ReflTransGen
      (Step { writers := [0, 1], positive := true }) twoWriters s ∧
    getCurrentToken true (s.gen 0) = 2 ∧ (0, 2) ∈ s.ledger.finished := by
  obtain ⟨s, hrun, halloc, htok⟩ := twoWriters_run
  refine ⟨s, hrun, htok, getCurrentToken_safe twoWriters_started hrun .refl 0 0 2 halloc ?_⟩
  rw [htok]
  exact le_refl 2

end Synapse.Storage
