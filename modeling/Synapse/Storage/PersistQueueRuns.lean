import Synapse.Storage.PersistQueue

/-!
# Runs of the persistence queue

What holds in every state that an interleaving of callers, loops and callbacks
can reach. The invariant has five parts. `Handled` ties the loops to the
dictionary: a room with a deque has exactly one loop, and the loop drains that
deque. `Ordered` says that what was queued for a room is what was started, in
that order, followed by what waits. `Contained` says that an item's task is
made of the tasks of the calls that wait for it. `Processed` ties the results
of the items to the history of the callbacks, and `Answered` ties what the
calls were told to the results.
-/

namespace Synapse.Storage

open Synapse.Util List AList
open Function (update update_apply update_of_ne update_self)
open Option (bind_eq_some_iff ite_none_right_eq_some map_eq_some_iff some.inj)
open QueueLoop (roomId)
open EventPersistQueueTask (mergeAll mergeAll_concat)
open Prod (fst snd)

namespace EventPeristenceQueue
variable {ρ ε χ α : Type} [DecidableEq ρ]

/-! ## The invariant -/

variable (s : EventPeristenceQueue ρ ε χ α)

/-- What waits for the room, in the deque that the dictionary holds for it. -/
def waitingIn (r : ρ) : List ℕ :=
  match s.eventPersistQueues.lookup r with
  | some q => s.deques q
  | none => []

/-- The entries of a room in a history. -/
def inRoom (r : ρ) (history : List (ρ × ℕ)) : List ℕ := (history.filter fun x => x.1 = r).map snd

/-- A room with a deque has a loop, exactly one, and the loop drains the deque
that the dictionary holds. A room in `opening` may have got its deque just now. -/
structure Handled (opening : List ρ) (s : EventPeristenceQueue ρ ε χ α) : Prop where
  loops_nodup : (s.loops.map roomId).Nodup
  persisting : ∀ r, r ∈ s.currentlyPersistingRooms ↔ r ∈ s.loops.map roomId
  loop_queue : ∀ lp ∈ s.loops, ∀ q, lp.queue = some q → s.eventPersistQueues.lookup lp.roomId = some q
  queues_lt : ∀ r q, s.eventPersistQueues.lookup r = some q → q < s.nextDeque
  queues_inj : ∀ r r' q, s.eventPersistQueues.lookup r = some q →
    s.eventPersistQueues.lookup r' = some q → r = r'
  handled : ∀ r ∈ s.eventPersistQueues, r ∈ s.loops.map roomId ∨ r ∈ opening

/-- What was queued for a room was started, in that order, or waits. -/
structure Ordered : Prop where
  order : ∀ r, inRoom r s.queued = inRoom r s.started ++ s.waitingIn r
  ids : s.queued.map snd = range s.nextItem

/-- Every call has its item, and an item's task is made of the tasks of its calls; it is not changed after
it has been handed over. -/
structure Contained : Prop where
  calls_queued : ∀ c ∈ s.calls, (c.roomId, c.endItem) ∈ s.queued
  tasks : ∀ i < s.nextItem, mergeAll (s.tasksOf i) = some (s.items i).task
  handed : s.handed = s.started.map fun x => (x.2, (s.items x.2).task)

/-- An item that was started is in progress or has the result its callback ended
with. -/
structure Processed : Prop where
  loop_item : ∀ lp ∈ s.loops, ∀ i, lp.item = some i → (lp.roomId, i) ∈ s.started ∧ s.result i = none
  result_iff : ∀ i o, s.result i = some o ↔ (i, o) ∈ s.finished
  finished_nodup : (s.finished.map fst).Nodup
  finished_started : ∀ x ∈ s.finished, x.1 ∈ s.started.map snd
  started_cases : ∀ x ∈ s.started, (∃ lp ∈ s.loops, lp.item = some x.2) ∨ s.result x.2 ≠ none

/-- What the calls were told. -/
structure Answered : Prop where
  returned : ∀ k c, s.calls[k]? = some c → ∀ o, s.callState k = .returned o → s.result c.endItem = some o
  awaiting : ∀ k c, s.calls[k]? = some c → s.callState k = .awaiting → k ∈ s.observers c.endItem
  observed : ∀ i k, k ∈ s.observers i → s.callState k = .awaiting ∧
    ∃ c, s.calls[k]? = some c ∧ c.endItem = i
  fired : ∀ i, s.result i ≠ none → s.observers i = []

structure Inv : Prop where
  handled : Handled [] s
  ordered : Ordered s
  contained : Contained s
  processed : Processed s
  answered : Answered s

/-! ### `setdefault` -/

variable {s} {roomId : ρ} {q : ℕ}

theorem waitingIn_of_lookup (h : s.eventPersistQueues.lookup roomId = some q) :
    s.waitingIn roomId = s.deques q := by
  rw [waitingIn, h]

theorem setdefaultQueue_of_lookup (h : s.eventPersistQueues.lookup roomId = some q) :
    s.setdefaultQueue roomId = (q, s) := by
  unfold setdefaultQueue
  rw [h]

theorem setdefaultQueue_of_none (h : s.eventPersistQueues.lookup roomId = none) :
    s.setdefaultQueue roomId = (s.nextDeque, { s with
      eventPersistQueues := s.eventPersistQueues.insert roomId s.nextDeque
      deques := update s.deques s.nextDeque []
      nextDeque := s.nextDeque + 1 }) := by
  unfold setdefaultQueue
  rw [h]

theorem lookup_setdefaultQueue (roomId : ρ) :
    (s.setdefaultQueue roomId).2.eventPersistQueues.lookup roomId =
      some (s.setdefaultQueue roomId).1 := by
  cases h : s.eventPersistQueues.lookup roomId with
  | some q => rw [setdefaultQueue_of_lookup h, h]
  | none => rw [setdefaultQueue_of_none h, lookup_insert]

/-- Nothing but the queues of the rooms changes. -/
theorem setdefaultQueue_eq (roomId : ρ) :
    ∃ queues deques nextDeque, (s.setdefaultQueue roomId).2 =
      { s with eventPersistQueues := queues, deques := deques, nextDeque := nextDeque } := by
  cases h : s.eventPersistQueues.lookup roomId with
  | some q => rw [setdefaultQueue_of_lookup h]; exact ⟨_, _, _, rfl⟩
  | none => rw [setdefaultQueue_of_none h]; exact ⟨_, _, _, rfl⟩

variable {opening : List ρ}

theorem Handled.setdefaultQueue (h : Handled opening s) (roomId : ρ) :
    Handled (roomId :: opening) (s.setdefaultQueue roomId).2 := by
  cases hroom : s.eventPersistQueues.lookup roomId with
  | some q =>
    rw [setdefaultQueue_of_lookup hroom]
    exact { h with handled := fun r hr => (h.handled r hr).imp_right (mem_cons_of_mem _) }
  | none =>
    rw [setdefaultQueue_of_none hroom]
    -- the new deque is above all the others
    refine { h with
      loop_queue := fun lp hlp q hq => ?_, queues_lt := fun r q hq => ?_,
      queues_inj := fun r r' q hr hr' => ?_, handled := fun r hr => ?_ }
    · have hlookup := h.loop_queue lp hlp q hq
      rw [lookup_insert_ne, hlookup]
      rintro heq
      rw [heq, hroom] at hlookup
      exact nomatch hlookup
    · show q < s.nextDeque + 1
      rcases Dict.lookup_insert_cases hq with ⟨_, rfl⟩ | ⟨_, hq⟩
      · omega
      · exact Nat.lt_succ_of_lt (h.queues_lt r q hq)
    · rcases Dict.lookup_insert_cases hr with ⟨rfl, rfl⟩ | ⟨_, hr⟩
      · rcases Dict.lookup_insert_cases hr' with ⟨rfl, _⟩ | ⟨_, hr'⟩
        · rfl
        · exact absurd (h.queues_lt r' _ hr') (lt_irrefl _)
      · rcases Dict.lookup_insert_cases hr' with ⟨_, rfl⟩ | ⟨_, hr'⟩
        · exact absurd (h.queues_lt r _ hr) (lt_irrefl _)
        · exact h.queues_inj r r' q hr hr'
    · rcases (mem_insert _).mp hr with rfl | hr
      · exact .inr mem_cons_self
      · exact (h.handled r hr).imp_right (mem_cons_of_mem _)

theorem Handled.waitingIn_setdefaultQueue (h : Handled opening s) (roomId r : ρ) :
    (s.setdefaultQueue roomId).2.waitingIn r = s.waitingIn r := by
  cases hroom : s.eventPersistQueues.lookup roomId with
  | some q => rw [setdefaultQueue_of_lookup hroom]
  | none =>
    rw [setdefaultQueue_of_none hroom]
    unfold waitingIn
    by_cases hr : r = roomId
    · subst hr
      rw [hroom, lookup_insert]
      exact update_self ..
    · rw [lookup_insert_ne hr]
      cases hq : s.eventPersistQueues.lookup r with
      | none => rfl
      | some q => exact update_of_ne (h.queues_lt r q hq).ne _ _

theorem Inv.setdefaultQueue (h : Inv s) (roomId : ρ) :
    Handled [roomId] (s.setdefaultQueue roomId).2 ∧ Ordered (s.setdefaultQueue roomId).2 ∧
      Contained (s.setdefaultQueue roomId).2 ∧ Processed (s.setdefaultQueue roomId).2 ∧
      Answered (s.setdefaultQueue roomId).2 := by
  have hhandled := h.handled.setdefaultQueue roomId
  have hwaiting := h.handled.waitingIn_setdefaultQueue roomId
  obtain ⟨_, _, _, heq⟩ := setdefaultQueue_eq roomId
  rw [heq] at hhandled hwaiting ⊢
  refine ⟨hhandled, ⟨fun r => ?_, h.ordered.ids⟩, { h.contained with }, { h.processed with },
    { h.answered with }⟩
  rw [hwaiting]
  exact h.ordered.order r

/-! ### `add_to_queue` -/

variable {s s' : EventPeristenceQueue ρ ε χ α} {c : AddCall ρ ε} {i k : ℕ}

section
omit [DecidableEq ρ]

/-- The two ways `end_item` is found. -/
theorem enqueue_cases (roomId : ρ) (task : EventPersistQueueTask ε) (q : ℕ) :
    (∃ i merged, i ∈ s.deques q ∧ (s.items i).task.tryMerge task = some merged ∧ s.enqueue roomId task q =
        (i, { s with items := update s.items i { s.items i with task := merged } })) ∨
    s.enqueue roomId task q = (s.nextItem, { s with
      items := update s.items s.nextItem ⟨task, ⟨none, []⟩⟩
      nextItem := s.nextItem + 1
      deques := update s.deques q (s.deques q ++ [s.nextItem])
      queued := s.queued ++ [(roomId, s.nextItem)] }) := by
  unfold enqueue
  split
  next i merged heq =>
    obtain ⟨j, hj, hmerge⟩ := bind_eq_some_iff.mp heq
    obtain ⟨t, ht, hpair⟩ := map_eq_some_iff.mp hmerge
    obtain ⟨rfl, rfl⟩ := Prod.mk.inj hpair
    exact .inl ⟨j, t, mem_of_getLast? hj, ht, rfl⟩
  · exact .inr rfl

/-- Nothing but the items and the deques changes. -/
theorem enqueue_eq (s : EventPeristenceQueue ρ ε χ α) (roomId : ρ) (task : EventPersistQueueTask ε)
    (q : ℕ) : ∃ items nextItem deques queued, (s.enqueue roomId task q).2 =
      { s with items := items, nextItem := nextItem, deques := deques, queued := queued } := by
  rcases enqueue_cases roomId task q with ⟨i, merged, _, _, heq⟩ | heq
  · rw [heq]; exact ⟨_, _, _, _, rfl⟩
  · rw [heq]; exact ⟨_, _, _, _, rfl⟩

theorem tasksOf_recordCall (c : AddCall ρ ε) (i : ℕ) :
    (s.recordCall c).tasksOf i = s.tasksOf i ++ if c.endItem = i then [c.task] else [] := by
  show (filter _ (s.calls ++ [c])).map _ = _
  by_cases h : c.endItem = i
  · simp [h, tasksOf]
  · simp [h, tasksOf]

/-- A new call leaves the other calls as they are. -/
theorem getElem?_recordCall (s : EventPeristenceQueue ρ ε χ α) (c : AddCall ρ ε)
    {c' : AddCall ρ ε} (hk : (s.recordCall c).calls[k]? = some c') :
    (s.calls[k]? = some c' ∧ (s.recordCall c).callState k = s.callState k) ∨
      (s.recordCall c).callState k = .adding := by
  rcases Nat.lt_trichotomy k s.calls.length with hlt | rfl | hgt
  · rw [EventPeristenceQueue.recordCall, getElem?_append_left hlt] at hk
    exact .inl ⟨hk, update_of_ne hlt.ne _ _⟩
  · exact .inr (update_self ..)
  · have hle : (s.calls ++ [c]).length ≤ k := by
      rw [length_append]
      exact hgt
    rw [EventPeristenceQueue.recordCall, getElem?_eq_none hle] at hk
    exact nomatch hk

theorem Answered.recordCall (h : Answered s) (c : AddCall ρ ε) : Answered (s.recordCall c) := by
  refine { h with
    returned := fun k c' hk o ho => ?_, awaiting := fun k c' hk hawaiting => ?_,
    observed := fun i k hk => ?_ }
  · rcases getElem?_recordCall s c hk with ⟨hk, hstate⟩ | hstate
    · exact h.returned k c' hk o (hstate ▸ ho)
    · rw [hstate] at ho
      exact nomatch ho
  · rcases getElem?_recordCall s c hk with ⟨hk, hstate⟩ | hstate
    · exact h.awaiting k c' hk (hstate ▸ hawaiting)
    · rw [hstate] at hawaiting
      exact nomatch hawaiting
  · obtain ⟨hawaiting, c', hk', hitem⟩ := h.observed i k hk
    have hlt : k < s.calls.length := (List.getElem?_eq_some_iff.mp hk').1
    refine ⟨?_, c', ?_, hitem⟩
    · rw [← hawaiting]
      exact update_of_ne hlt.ne _ _
    · rw [← hk']
      exact getElem?_append_left hlt

theorem Contained.handed_update (h : Contained s) {item : EventPersistQueueItem ε χ α}
    (hnot : ∀ r, (r, i) ∉ s.started) :
    s.handed = s.started.map fun x => (x.2, (update s.items i item x.2).task) := by
  rw [h.handed]
  refine map_congr_left fun x hx => ?_
  have hne : x.2 ≠ i := by
    rintro rfl
    exact hnot x.1 hx
  rw [update_of_ne hne]

section
variable {item : EventPersistQueueItem ε χ α} (h : s'.items = update s.items i item) (j : ℕ)
include h

theorem result_of_items : s'.result j = if j = i then item.deferred.result else s.result j := by
  unfold result
  rw [h, update_apply]
  split <;> rfl

theorem observers_of_items :
    s'.observers j = if j = i then item.deferred.observers else s.observers j := by
  unfold observers
  rw [h, update_apply]
  split <;> rfl

end

/-- Only the results, the loops and the history matter. -/
theorem Processed.congr (h : Processed s) (hresult : ∀ i, s'.result i = s.result i)
    (hloops : s'.loops = s.loops) (hstarted : s'.started = s.started)
    (hfinished : s'.finished = s.finished) : Processed s' := by
  obtain ⟨h₁, h₂, h₃, h₄, h₅⟩ := h
  refine ⟨?_, ?_, ?_, ?_, ?_⟩ <;> simp only [hloops, hstarted, hfinished, hresult] <;> assumption

/-- Only the deferreds and the calls matter. -/
theorem Answered.congr (h : Answered s) (hresult : ∀ i, s'.result i = s.result i)
    (hobservers : ∀ i, s'.observers i = s.observers i) (hcalls : s'.calls = s.calls)
    (hstate : s'.callState = s.callState) : Answered s' := by
  obtain ⟨h₁, h₂, h₃, h₄⟩ := h
  refine ⟨?_, ?_, ?_, ?_⟩ <;> simp only [hcalls, hstate, hresult, hobservers] <;> assumption

end

theorem inRoom_append (r : ρ) (history history' : List (ρ × ℕ)) :
    inRoom r (history ++ history') = inRoom r history ++ inRoom r history' := by
  unfold inRoom
  rw [filter_append, map_append]

theorem inRoom_self (r : ρ) (i : ℕ) : inRoom r [(r, i)] = [i] := by simp [inRoom]

variable {r r' : ρ}

theorem inRoom_of_ne (h : r' ≠ r) (i : ℕ) : inRoom r [(r', i)] = [] := by
  simp [inRoom, h]

theorem mem_inRoom {history : List (ρ × ℕ)} : i ∈ inRoom r history ↔ (r, i) ∈ history := by
  unfold inRoom
  rw [mem_map]
  constructor
  · rintro ⟨⟨r', i'⟩, hx, rfl⟩
    obtain ⟨hmem, hr⟩ := mem_filter.mp hx
    rwa [← of_decide_eq_true hr]
  · exact fun h => ⟨(r, i), mem_filter.mpr ⟨h, decide_eq_true rfl⟩, rfl⟩

section
variable (h : Ordered s)
include h

theorem Ordered.lt_of_queued {x : ρ × ℕ} (hx : x ∈ s.queued) : x.2 < s.nextItem := by
  have hmem : x.2 ∈ s.queued.map snd := mem_map_of_mem hx
  rw [h.ids] at hmem
  exact mem_range.mp hmem

theorem Ordered.queued_of_started {x : ρ × ℕ} (hx : x ∈ s.started) : x ∈ s.queued := by
  rw [← Prod.mk.eta (p := x), ← mem_inRoom, h.order]
  exact mem_append_left _ (mem_inRoom.mpr hx)

theorem Ordered.queued_of_waiting (hi : i ∈ s.waitingIn r) : (r, i) ∈ s.queued := by
  rw [← mem_inRoom, h.order]
  exact mem_append_right _ hi

/-- An item is queued once. -/
theorem Ordered.room_eq (hr : (r, i) ∈ s.queued) (hr' : (r', i) ∈ s.queued) : r = r' := by
  have hnodup : (s.queued.map snd).Nodup := h.ids ▸ nodup_range
  exact congrArg fst (inj_on_of_nodup_map hnodup hr hr' rfl)

theorem Ordered.nodup_inRoom (r : ρ) : (inRoom r s.started ++ s.waitingIn r).Nodup := by
  have hids : (s.queued.map snd).Nodup := h.ids ▸ nodup_range
  rw [← h.order]
  exact hids.sublist (filter_sublist.map _)

/-- What waits has not been started. -/
theorem Ordered.not_started (hi : i ∈ s.waitingIn r) : (r', i) ∉ s.started := by
  intro hstarted
  obtain rfl := h.room_eq (h.queued_of_waiting hi) (h.queued_of_started hstarted)
  exact disjoint_of_nodup_append (h.nodup_inRoom r) (mem_inRoom.mpr hstarted) hi

theorem Ordered.started_nodup : (inRoom r s.started).Nodup := (h.nodup_inRoom r).of_append_left

end

theorem Ordered.enqueue (ho : Ordered s) (h : Handled opening s)
    (hq : s.eventPersistQueues.lookup roomId = some q) (task : EventPersistQueueTask ε) :
    Ordered (s.enqueue roomId task q).2 := by
  rcases enqueue_cases roomId task q with ⟨i, merged, _, _, heq⟩ | heq
  · rw [heq]; exact { ho with }
  · rw [heq]
    refine ⟨fun r => ?_, ?_⟩
    · rw [inRoom_append, ho.order]
      by_cases hr : roomId = r
      · subst hr
        rw [inRoom_self, append_assoc]
        simp only [waitingIn, hq, update_self]
      · rw [inRoom_of_ne hr, append_nil]
        unfold waitingIn
        cases hq' : s.eventPersistQueues.lookup r with
        | none => rfl
        | some q' =>
          have hne : q' ≠ q := fun heq => hr (h.queues_inj roomId r q hq (heq ▸ hq'))
          simp only [update_of_ne hne]
    · rw [map_append, ho.ids, range_succ]
      rfl

theorem Contained.endItem_lt (h : Contained s) (ho : Ordered s) (hc : c ∈ s.calls) :
    c.endItem < s.nextItem := ho.lt_of_queued (h.calls_queued c hc)

/-- The call and its task go into the item that `enqueue` returns. -/
theorem Contained.enqueue (h : Contained s) (ho : Ordered s)
    (hq : s.eventPersistQueues.lookup roomId = some q) (task : EventPersistQueueTask ε) :
    Contained ((s.enqueue roomId task q).2.recordCall ⟨roomId, task, (s.enqueue roomId task q).1⟩) := by
  rcases enqueue_cases roomId task q with ⟨i, merged, hi, hmerge, heq⟩ | heq
  · rw [heq]
    have hqueued : (roomId, i) ∈ s.queued := ho.queued_of_waiting (waitingIn_of_lookup hq ▸ hi)
    -- an item that waits has not been handed over
    refine ⟨forall_mem_append.mpr ⟨h.calls_queued, forall_mem_singleton.mpr hqueued⟩, fun j hj => ?_,
      h.handed_update fun _ => ho.not_started (waitingIn_of_lookup hq ▸ hi)⟩
    rw [tasksOf_recordCall]
    show mergeAll (s.tasksOf j ++ if i = j then [task] else []) =
      some (update s.items i { s.items i with task := merged } j).task
    by_cases hij : i = j
    · subst hij
      rw [if_pos rfl, mergeAll_concat (h.tasks i hj), hmerge, update_self]
    · rw [if_neg hij, append_nil, update_of_ne (Ne.symm hij)]
      exact h.tasks j hj
  · rw [heq]
    refine ⟨forall_mem_append.mpr ⟨fun c hc => mem_append_left _ (h.calls_queued c hc),
      forall_mem_singleton.mpr mem_concat_self⟩, fun j hj => ?_,
      h.handed_update fun _ hr => (ho.lt_of_queued (ho.queued_of_started hr)).false⟩
    rw [tasksOf_recordCall]
    show mergeAll (s.tasksOf j ++ if s.nextItem = j then [task] else []) =
      some (update s.items s.nextItem ⟨task, ⟨none, []⟩⟩ j).task
    by_cases hij : s.nextItem = j
    · subst hij
      -- no earlier call can have the new item
      have hnone : s.tasksOf s.nextItem = [] := by
        unfold tasksOf
        rw [map_eq_nil_iff, filter_eq_nil_iff]
        intro c hc heq
        exact (h.endItem_lt ho hc).ne (of_decide_eq_true heq)
      rw [if_pos rfl, hnone, update_self]
      rfl
    · rw [if_neg hij, append_nil, update_of_ne (Ne.symm hij)]
      exact h.tasks j (lt_of_le_of_ne (Nat.lt_succ_iff.mp hj) (Ne.symm hij))

variable {o : Except χ α}

theorem Processed.lt_of_result (h : Processed s) (ho : Ordered s) (hi : (i, o) ∈ s.finished) :
    i < s.nextItem := by
  obtain ⟨x, hx, heq⟩ := mem_map.mp (h.finished_started _ hi)
  rw [← show x.2 = i from heq]
  exact ho.lt_of_queued (ho.queued_of_started hx)

/-- Neither a merge nor a new item changes a deferred that anybody refers to. -/
theorem enqueue_deferred (hp : Processed s) (h : Answered s) (ho : Ordered s) (hc : Contained s)
    (roomId : ρ) (task : EventPersistQueueTask ε) (q j : ℕ) :
    (s.enqueue roomId task q).2.result j = s.result j ∧
      (s.enqueue roomId task q).2.observers j = s.observers j := by
  rcases enqueue_cases roomId task q with ⟨i, merged, _, _, heq⟩ | heq
  · rw [heq, result_of_items rfl, observers_of_items rfl]
    exact ⟨ite_eq_right_iff.mpr fun hj => congrArg s.result hj.symm,
      ite_eq_right_iff.mpr fun hj => congrArg s.observers hj.symm⟩
  · have hresult : s.result s.nextItem = none := by
      refine Option.eq_none_iff_forall_ne_some.mpr fun o hresult => ?_
      exact absurd (hp.lt_of_result ho ((hp.result_iff _ o).mp hresult)) (lt_irrefl _)
    have hobservers : s.observers s.nextItem = [] := by
      refine eq_nil_iff_forall_not_mem.mpr fun k hk => ?_
      obtain ⟨_, c, hk, hitem⟩ := h.observed _ k hk
      exact absurd hitem (hc.endItem_lt ho (mem_of_getElem? hk)).ne
    rw [heq, result_of_items rfl, observers_of_items rfl]
    exact ⟨ite_eq_right_iff.mpr fun hj => (hj ▸ hresult).symm,
      ite_eq_right_iff.mpr fun hj => (hj ▸ hobservers).symm⟩

theorem Handled.handleQueue (h : Handled [roomId] s) : Handled [] (s.handleQueue roomId) := by
  unfold EventPeristenceQueue.handleQueue
  split
  next hmem =>
    refine { h with handled := fun r hr => ?_ }
    rcases h.handled r hr with hr | hr
    · exact .inl hr
    · rw [mem_singleton.mp hr]
      exact .inl ((h.persisting roomId).mp hmem)
  next hmem =>
    refine { h with
      loops_nodup := ?_, persisting := fun r => ?_, loop_queue := fun lp hlp q hq => ?_,
      handled := fun r hr => ?_ }
    · exact nodup_cons.mpr ⟨fun hin => hmem ((h.persisting roomId).mpr hin), h.loops_nodup⟩
    · rw [mem_cons, map_cons, mem_cons, h.persisting]
    · rcases mem_cons.mp hlp with rfl | hlp
      · exact nomatch hq
      · exact h.loop_queue lp hlp q hq
    · rcases h.handled r hr with hr | hr
      · exact .inl (mem_cons_of_mem _ hr)
      · rw [mem_singleton.mp hr]
        exact .inl mem_cons_self

theorem Processed.handleQueue (h : Processed s) (roomId : ρ) : Processed (s.handleQueue roomId) := by
  unfold EventPeristenceQueue.handleQueue
  split
  · exact h
  · refine { h with loop_item := fun lp hlp i hi => ?_, started_cases := fun x hx => ?_ }
    · rcases mem_cons.mp hlp with rfl | hlp
      · exact nomatch hi
      · exact h.loop_item lp hlp i hi
    · refine (h.started_cases x hx).imp_left fun hloop => ?_
      obtain ⟨lp, hlp, hi⟩ := hloop
      exact ⟨lp, mem_cons_of_mem _ hlp, hi⟩

theorem Inv.addToQueue (h : Inv s) (roomId : ρ) (task : EventPersistQueueTask ε) :
    Inv (s.addToQueue roomId task) := by
  have hq := lookup_setdefaultQueue (s := s) roomId
  obtain ⟨hhandled, hordered, hcontained, hprocessed, hanswered⟩ := h.setdefaultQueue roomId
  unfold EventPeristenceQueue.addToQueue
  generalize s.setdefaultQueue roomId = queue at *
  obtain ⟨q, s₁⟩ := queue
  dsimp only at *
  have hdeferred := enqueue_deferred hprocessed hanswered hordered hcontained roomId task q
  have hordered' := hordered.enqueue hhandled hq task
  have hcontained' := hcontained.enqueue hordered hq task
  obtain ⟨items, nextItem, deques, queued, heq⟩ := s₁.enqueue_eq roomId task q
  generalize s₁.enqueue roomId task q = result at *
  obtain ⟨i, s₂⟩ := result
  obtain rfl : s₂ = _ := heq
  have hprocessed' := hprocessed.congr (fun j => (hdeferred j).1) rfl rfl rfl
  have hanswered' := hanswered.congr (fun j => (hdeferred j).1) (fun j => (hdeferred j).2) rfl rfl
  have hrecorded := hanswered'.recordCall ⟨roomId, task, i⟩
  refine ⟨Handled.handleQueue { hhandled with }, ?_, ?_, ?_, ?_⟩
  · unfold EventPeristenceQueue.handleQueue
    split
    · exact { hordered' with }
    · exact { hordered' with }
  · unfold EventPeristenceQueue.handleQueue
    split
    · exact hcontained'
    · exact { hcontained' with }
  · refine Processed.handleQueue ?_ roomId
    exact { hprocessed' with }
  · unfold EventPeristenceQueue.handleQueue
    split
    · exact hrecorded
    · exact { hrecorded with }

/-! ### The callers -/

section
omit [DecidableEq ρ]

/-- An item keeps its task when its deferred changes. -/
theorem Contained.deferred (h : Contained s) {d : ObservableDeferred χ α}
    (hitems : s'.items = update s.items i { s.items i with deferred := d })
    (hcalls : s'.calls = s.calls) (hqueued : s'.queued = s.queued)
    (hnext : s'.nextItem = s.nextItem) (hstarted : s'.started = s.started)
    (hhanded : s'.handed = s.handed) : Contained s' := by
  have htask : ∀ j, (s'.items j).task = (s.items j).task := by
    intro j
    rw [hitems, update_apply]
    split
    next hj => rw [hj]
    · rfl
  obtain ⟨hq, ht, heq⟩ := h
  refine ⟨by rw [hcalls, hqueued]; exact hq, fun j hj => ?_, by simp only [hhanded, hstarted, htask, heq]⟩
  rw [htask, show s'.tasksOf j = s.tasksOf j by unfold tasksOf; rw [hcalls]]
  exact ht j (hnext ▸ hj)

/-- A call observes the deferred of an item that is not done. -/
theorem Answered.await (h : Answered s) (hk : s.calls[k]? = some c) (hnone : s.result c.endItem = none)
    (hresult : ∀ i, s'.result i = s.result i) (hobservers : ∀ i, s'.observers i =
      if i = c.endItem then s.observers c.endItem ++ [k] else s.observers i)
    (hcalls : s'.calls = s.calls)
    (hstate : s'.callState = update s.callState k .awaiting) : Answered s' := by
  refine ⟨fun k' c' hk' o ho => ?_, fun k' c' hk' hawaiting => ?_, fun i k' hk' => ?_, fun i hi => ?_⟩
  · rw [hcalls] at hk'
    rw [hstate, update_apply] at ho
    rw [hresult]
    split at ho
    · exact nomatch ho
    · exact h.returned k' c' hk' o ho
  · rw [hcalls] at hk'
    rw [hstate, update_apply] at hawaiting
    rw [hobservers]
    split at hawaiting
    next hkk =>
      rw [hkk, hk] at hk'
      rw [← some.inj hk', if_pos rfl, hkk]
      exact mem_concat_self
    · have hmem := h.awaiting k' c' hk' hawaiting
      split
      next heq => exact mem_append_left _ (heq ▸ hmem)
      · exact hmem
  · have hold : ∀ j, k' ∈ s.observers j → s'.callState k' = .awaiting ∧
        ∃ c, s'.calls[k']? = some c ∧ c.endItem = j := by
      intro j hj
      obtain ⟨hawaiting, hcall⟩ := h.observed j k' hj
      rw [hcalls, hstate, update_apply, hawaiting]
      exact ⟨ite_self _, hcall⟩
    rw [hobservers] at hk'
    split at hk'
    next heq =>
      rcases mem_append.mp hk' with hk' | hk'
      · exact heq ▸ hold _ hk'
      · rw [mem_singleton.mp hk', hcalls, hstate, update_self]
        exact ⟨rfl, c, hk, heq.symm⟩
    · exact hold i hk'
  · rw [hresult] at hi
    rw [hobservers, if_neg]
    · exact h.fired i hi
    · rintro rfl
      exact hi hnone

/-- A call observes the deferred of an item that is done, and returns. -/
theorem Answered.return (h : Answered s) (hk : s.calls[k]? = some c)
    (hadding : s.callState k = .adding) (ho : s.result c.endItem = some o) :
    Answered { s with callState := update s.callState k (.returned o) } := by
  refine { h with
    returned := fun k' c' hk' o' ho' => ?_, awaiting := fun k' c' hk' hawaiting => ?_,
    observed := fun i k' hk' => ?_ }
  · dsimp only at ho'
    rw [update_apply] at ho'
    split at ho'
    next hkk =>
      rw [hkk, show s.calls[k]? = some c from hk] at hk'
      rw [← some.inj hk', ← CallState.returned.inj ho']
      exact ho
    · exact h.returned k' c' hk' o' ho'
  · dsimp only at hawaiting
    rw [update_apply] at hawaiting
    split at hawaiting
    · exact nomatch hawaiting
    · exact h.awaiting k' c' hk' hawaiting
  · obtain ⟨hawaiting, hcall⟩ := h.observed i k' hk'
    dsimp only
    rw [update_of_ne]
    · exact ⟨hawaiting, hcall⟩
    · rintro rfl
      rw [hadding] at hawaiting
      exact nomatch hawaiting

end

theorem Inv.observe (h : Inv s) (hs : s.observe k = some s') : Inv s' := by
  unfold EventPeristenceQueue.observe at hs
  split at hs
  next c hk hadding =>
    split at hs
    next hnone =>
      obtain rfl := some.inj hs
      have hresult : ∀ i, result { s with
          items := update s.items c.endItem { s.items c.endItem with
            deferred := ⟨none, s.observers c.endItem ++ [k]⟩ }
          callState := update s.callState k .awaiting } i = s.result i := by
        intro i
        rw [result_of_items rfl]
        exact ite_eq_right_iff.mpr fun hi => (hi ▸ hnone).symm
      exact ⟨{ h.handled with }, { h.ordered with }, h.contained.deferred rfl rfl rfl rfl rfl rfl,
        h.processed.congr hresult rfl rfl rfl,
        h.answered.await hk hnone hresult (fun i => by rw [observers_of_items rfl]) rfl rfl⟩
    next o ho =>
      obtain rfl := some.inj hs
      exact ⟨{ h.handled with }, { h.ordered with }, { h.contained with }, { h.processed with },
        h.answered.return hk hadding ho⟩
  · exact nomatch hs

/-! ### The loops -/

variable {lp lp' : QueueLoop ρ}

/-- A loop is the only one of its room. -/
theorem Handled.loop_eq (h : Handled opening s) (hlp : lp ∈ s.loops) (hlp' : lp' ∈ s.loops)
    (hroom : lp.roomId = lp'.roomId) : lp = lp' := inj_on_of_nodup_map h.loops_nodup hlp hlp' hroom

theorem Handled.mem_erase (h : Handled opening s) : lp' ∈ s.loops.erase lp ↔ lp' ≠ lp ∧ lp' ∈ s.loops :=
  h.loops_nodup.of_map.mem_erase_iff

/-- The loop of an item in progress is still there when another one goes on. -/
theorem Inv.started_erase (h : Inv s) {x : ρ × ℕ} (hx : x ∈ s.started) (hitem : lp.item ≠ some x.2) :
    (∃ l ∈ s.loops.erase lp, l.item = some x.2) ∨ s.result x.2 ≠ none := by
  refine (h.processed.started_cases x hx).imp_left fun hloop => ?_
  obtain ⟨l, hl, hl'⟩ := hloop
  refine ⟨l, h.handled.mem_erase.mpr ⟨?_, hl⟩, hl'⟩
  rintro rfl
  exact hitem hl'

/-- A loop goes on to its next stage, in the same room. -/
theorem Handled.replace (h : Handled opening s) (hlp : lp ∈ s.loops)
    (hloops : s'.loops = lp' :: s.loops.erase lp) (hroom : lp'.roomId = lp.roomId)
    (hqueue : ∀ q, lp'.queue = some q → s.eventPersistQueues.lookup lp.roomId = some q)
    (hqueues : s'.eventPersistQueues = s.eventPersistQueues)
    (hrooms : s'.currentlyPersistingRooms = s.currentlyPersistingRooms)
    (hnext : s'.nextDeque = s.nextDeque) : Handled opening s' := by
  have hperm : (s'.loops.map roomId).Perm (s.loops.map roomId) := by
    rw [hloops, map_cons, hroom, ← map_cons]
    exact ((perm_cons_erase hlp).map _).symm
  refine ⟨hperm.nodup_iff.mpr h.loops_nodup, fun r => ?_, fun l hl q hq => ?_, ?_, ?_, fun r hr => ?_⟩
  · rw [hrooms, h.persisting, hperm.mem_iff]
  · rw [hloops] at hl
    rw [hqueues]
    rcases mem_cons.mp hl with rfl | hl
    · rw [hroom]
      exact hqueue q hq
    · exact h.loop_queue l (mem_of_mem_erase hl) q hq
  · rw [hqueues, hnext]
    exact h.queues_lt
  · rw [hqueues]
    exact h.queues_inj
  · rw [hqueues] at hr
    exact (h.handled r hr).imp_left hperm.mem_iff.mpr

variable {lp : QueueLoop ρ}

/-- The callback of an item ends: the item has the outcome. -/
theorem Inv.processed_complete (h : Inv s) (hlp : lp ∈ s.loops) (hi : lp.item = some i)
    (hresult : ∀ j, s'.result j = if j = i then some o else s.result j)
    (hloops : s'.loops = { lp with item := none } :: s.loops.erase lp)
    (hstarted : s'.started = s.started) (hfinished : s'.finished = s.finished ++ [(i, o)]) :
    Processed s' := by
  obtain ⟨histarted, hnone⟩ := h.processed.loop_item lp hlp i hi
  have hfresh : ∀ o', (i, o') ∉ s.finished := by
    intro o' hmem
    rw [← h.processed.result_iff, hnone] at hmem
    exact nomatch hmem
  refine ⟨fun l hl j hj => ?_, fun j o' => ?_, ?_, fun x hx => ?_, fun x hx => ?_⟩
  · rw [hloops] at hl
    rw [hstarted, hresult]
    rcases mem_cons.mp hl with rfl | hl
    · exact nomatch hj
    · obtain ⟨hne, hl⟩ := h.handled.mem_erase.mp hl
      obtain ⟨hjstarted, hjnone⟩ := h.processed.loop_item l hl j hj
      refine ⟨hjstarted, ?_⟩
      rw [if_neg, hjnone]
      -- another loop is in another room, and so is its item
      rintro rfl
      exact hne (h.handled.loop_eq hl hlp (h.ordered.room_eq
        (h.ordered.queued_of_started hjstarted) (h.ordered.queued_of_started histarted)))
  · rw [hresult, hfinished, mem_append, mem_singleton, Prod.mk.injEq]
    split
    next hj =>
      subst hj
      rw [Option.some.injEq]
      exact ⟨fun heq => .inr ⟨rfl, heq.symm⟩, fun hmem => hmem.elim
        (fun hmem => absurd hmem (hfresh o')) fun heq => heq.2.symm⟩
    next hj =>
      rw [h.processed.result_iff]
      exact ⟨.inl, fun hmem => hmem.resolve_right fun heq => hj heq.1⟩
  · rw [hfinished, map_append, nodup_append]
    refine ⟨h.processed.finished_nodup, nodup_singleton _, fun j hj j' hj' => ?_⟩
    rintro rfl
    obtain ⟨⟨j, o'⟩, hx, rfl⟩ := mem_map.mp hj
    rw [map_singleton, mem_singleton] at hj'
    obtain rfl : j = i := hj'
    exact hfresh o' hx
  · rw [hfinished] at hx
    rw [hstarted]
    rcases mem_append.mp hx with hx | hx
    · exact h.processed.finished_started x hx
    · rw [mem_singleton.mp hx]
      exact mem_map.mpr ⟨_, histarted, rfl⟩
  · rw [hstarted] at hx
    rw [hresult, hloops]
    split
    · exact .inr (by simp)
    next hne =>
      have hitem : lp.item ≠ some x.2 := fun heq => hne (some.inj (heq.symm.trans hi))
      exact (h.started_erase hx hitem).imp_left (exists_mem_cons_of_exists ·)

omit [DecidableEq ρ] in
/-- The calls that observed the item have the outcome too. -/
theorem Answered.fire (h : Answered s) (hnone : s.result i = none)
    (hresult : ∀ j, s'.result j = if j = i then some o else s.result j)
    (hobservers : ∀ j, s'.observers j = if j = i then [] else s.observers j) (hcalls : s'.calls = s.calls)
    (hstate : ∀ k, s'.callState k = if k ∈ s.observers i then .returned o else s.callState k) :
    Answered s' := by
  refine ⟨fun k c hk o' ho' => ?_, fun k c hk hawaiting => ?_, fun j k hk => ?_, fun j hj => ?_⟩
  · rw [hcalls] at hk
    rw [hstate] at ho'
    rw [hresult]
    split at ho'
    next hk' =>
      obtain ⟨_, c', hcall, hitem⟩ := h.observed i k hk'
      rw [← CallState.returned.inj ho', if_pos]
      rw [some.inj (hk.symm.trans hcall), hitem]
    · -- the call has returned before, so it is not for the item that has no result yet
      have hold := h.returned k c hk o' ho'
      rw [if_neg, hold]
      intro heq
      rw [heq, hnone] at hold
      exact nomatch hold
  · rw [hcalls] at hk
    rw [hstate] at hawaiting
    split at hawaiting
    · exact nomatch hawaiting
    next hk' =>
      have hmem := h.awaiting k c hk hawaiting
      rw [hobservers, if_neg]
      · exact hmem
      · intro heq
        exact hk' (heq ▸ hmem)
  · rw [hobservers] at hk
    split at hk
    · exact nomatch hk
    next hj =>
      obtain ⟨hawaiting, c, hcall, hitem⟩ := h.observed j k hk
      rw [hcalls, hstate, if_neg]
      · exact ⟨hawaiting, c, hcall, hitem⟩
      · intro hk'
        obtain ⟨_, c', hcall', hitem'⟩ := h.observed i k hk'
        rw [some.inj (hcall.symm.trans hcall'), hitem'] at hitem
        exact hj hitem.symm
  · rw [hresult] at hj
    rw [hobservers]
    split
    · rfl
    next hne =>
      rw [if_neg hne] at hj
      exact h.fired j hj

theorem complete_inv (hs : s.complete lp o = some s') : lp ∈ s.loops ∧ ∃ i, lp.item = some i := by
  obtain ⟨hlp, hs⟩ := ite_none_right_eq_some.mp hs
  obtain ⟨i, hi, _⟩ := map_eq_some_iff.mp hs
  exact ⟨hlp, i, hi⟩

section
variable (h : Inv s) (hlp : lp ∈ s.loops)
include h hlp

/-- The deferred of an item in progress has not been called, so that the loop
goes on. -/
theorem Inv.complete_eq (hi : lp.item = some i) (o : Except χ α) : s.complete lp o = some { s with
      items := update s.items i { s.items i with deferred := ⟨some o, []⟩ }
      callState := fun k => if k ∈ s.observers i then .returned o else s.callState k
      finished := s.finished ++ [(i, o)]
      loops := { lp with item := none } :: s.loops.erase lp } := by
  unfold EventPeristenceQueue.complete fire
  rw [if_pos hlp, hi, Option.map_some, (h.processed.loop_item lp hlp i hi).2]

theorem Inv.complete (hi : lp.item = some i) (hs : s.complete lp o = some s') : Inv s' := by
  rw [h.complete_eq hlp hi] at hs
  obtain rfl := some.inj hs
  exact ⟨h.handled.replace hlp rfl rfl (h.handled.loop_queue lp hlp) rfl rfl rfl,
    { h.ordered with }, h.contained.deferred rfl rfl rfl rfl rfl rfl,
    h.processed_complete hlp hi (fun j => by rw [result_of_items rfl]) rfl rfl rfl,
    h.answered.fire (h.processed.loop_item lp hlp i hi).2 (fun j => by rw [result_of_items rfl])
      (fun j => by rw [observers_of_items rfl]) rfl fun _ => rfl⟩

/-- A loop's deque is the one the dictionary has for its room; opening it
changes nothing that matters. -/
theorem Inv.openQueue : Inv (s.openQueue lp).2 ∧ (s.openQueue lp).2.loops = s.loops ∧
      (s.openQueue lp).2.eventPersistQueues.lookup lp.roomId = some (s.openQueue lp).1 := by
  unfold EventPeristenceQueue.openQueue
  cases hq : lp.queue with
  | some q => exact ⟨h, rfl, h.handled.loop_queue lp hlp q hq⟩
  | none =>
    have hloops : (s.setdefaultQueue lp.roomId).2.loops = s.loops := by
      unfold EventPeristenceQueue.setdefaultQueue
      split <;> rfl
    obtain ⟨hhandled, hinv⟩ := h.setdefaultQueue lp.roomId
    refine ⟨⟨{ hhandled with handled := fun r hr => .inl ?_ }, hinv.1, hinv.2.1, hinv.2.2.1, hinv.2.2.2⟩,
      hloops, lookup_setdefaultQueue lp.roomId⟩
    rcases hhandled.handled r hr with hr | hr
    · exact hr
    · rw [hloops, mem_singleton.mp hr]
      exact mem_map.mpr ⟨lp, hlp, rfl⟩

end

/-- The loop takes the first waiting item of its room. -/
theorem Inv.popleft_cons (h : Inv s) (hlp : lp ∈ s.loops) (hnone : lp.item = none) {q i : ℕ}
    {rest : List ℕ} (hq : s.eventPersistQueues.lookup lp.roomId = some q)
    (hdeque : s.deques q = i :: rest) : Inv { s with
      deques := update s.deques q rest
      loops := ⟨lp.roomId, some q, some i⟩ :: s.loops.erase lp
      started := s.started ++ [(lp.roomId, i)]
      handed := s.handed ++ [(i, (s.items i).task)] } := by
  have hi : i ∈ s.waitingIn lp.roomId := by
    rw [waitingIn_of_lookup hq, hdeque]
    exact mem_cons_self
  refine ⟨h.handled.replace hlp rfl rfl (fun q' hq' => some.inj hq' ▸ hq) rfl rfl rfl,
    ⟨fun r => ?_, h.ordered.ids⟩,
    { h.contained with handed := by rw [map_append, ← h.contained.handed]; rfl },
    { h.processed with
      loop_item := fun l hl j hj => ?_
      finished_started := fun x hx => ?_
      started_cases := fun x hx => ?_ }, { h.answered with }⟩
  · refine (h.ordered.order r).trans ?_
    rw [inRoom_append, append_assoc]
    congr 1
    by_cases hr : lp.roomId = r
    · subst hr
      rw [inRoom_self, waitingIn_of_lookup hq, hdeque]
      simp only [waitingIn, hq, update_self, singleton_append]
    · rw [inRoom_of_ne hr, nil_append]
      unfold waitingIn
      cases hq' : s.eventPersistQueues.lookup r with
      | none => rfl
      | some q' =>
        have hne : q' ≠ q := fun heq => hr (h.handled.queues_inj _ r q hq (heq ▸ hq'))
        simp only [update_of_ne hne]
  · rcases mem_cons.mp hl with rfl | hl
    · obtain rfl := some.inj hj
      refine ⟨mem_concat_self, ?_⟩
      refine Option.eq_none_iff_forall_ne_some.mpr fun o ho => ?_
      -- it has no result, since it was not started
      have hfinished := h.processed.finished_started _ ((h.processed.result_iff i o).mp ho)
      obtain ⟨x, hx, hxi⟩ := mem_map.mp hfinished
      rw [← Prod.mk.eta (p := x), show x.2 = i from hxi] at hx
      exact h.ordered.not_started hi hx
    · obtain ⟨hstarted, hresult⟩ := h.processed.loop_item l (mem_of_mem_erase hl) j hj
      exact ⟨mem_append_left _ hstarted, hresult⟩
  · rw [map_append]
    exact mem_append_left _ (h.processed.finished_started x hx)
  · rcases mem_append.mp hx with hx | hx
    · have hitem : lp.item ≠ some x.2 := by simp [hnone]
      exact (h.started_erase hx hitem).imp_left (exists_mem_cons_of_exists ·)
    · rw [mem_singleton.mp hx]
      exact .inl ⟨_, mem_cons_self, rfl⟩

/-- The loop finds its deque empty: the room is forgotten. -/
theorem Inv.popleft_nil (h : Inv s) (hlp : lp ∈ s.loops) (hnone : lp.item = none)
    (hq : s.eventPersistQueues.lookup lp.roomId = some q) (hdeque : s.deques q = []) :
    Inv (s.finishLoop lp) := by
  have hqueues : (s.finishLoop lp).eventPersistQueues = s.eventPersistQueues.erase lp.roomId := by
    unfold EventPeristenceQueue.finishLoop
    rw [hq]
    dsimp only
    rw [if_pos hdeque]
  have hlookup : ∀ r q', (s.finishLoop lp).eventPersistQueues.lookup r = some q' →
      r ≠ lp.roomId ∧ s.eventPersistQueues.lookup r = some q' := by
    intro r q' hq'
    rw [hqueues] at hq'
    by_cases hr : r = lp.roomId
    · rw [hr, lookup_erase] at hq'
      exact nomatch hq'
    · rw [lookup_erase_ne hr] at hq'
      exact ⟨hr, hq'⟩
  have hperm : (s.loops.map roomId).Perm
      (lp.roomId :: (s.loops.erase lp).map roomId) := (perm_cons_erase hlp).map _
  have hnodup := hperm.nodup_iff.mp h.handled.loops_nodup
  -- one loop per room: without this loop its room has none
  have hrooms : ∀ r, r ∈ (s.loops.erase lp).map roomId ↔ r ∈ s.loops.map roomId ∧ r ≠ lp.roomId := by
    intro r
    rw [hperm.mem_iff, mem_cons]
    refine ⟨fun hr => ⟨.inr hr, ?_⟩, fun hr => hr.1.resolve_left hr.2⟩
    rintro rfl
    exact (nodup_cons.mp hnodup).1 hr
  refine ⟨⟨(nodup_cons.mp hnodup).2, fun r => ?_, fun l hl q' hq' => ?_,
      fun r q' hq' => h.handled.queues_lt r q' (hlookup r q' hq').2,
      fun r r' q' hr hr' => h.handled.queues_inj r r' q' (hlookup r q' hr).2 (hlookup r' q' hr').2,
      fun r hr => ?_⟩, ⟨fun r => ?_, h.ordered.ids⟩, { h.contained with },
    { h.processed with
      loop_item := fun l hl => h.processed.loop_item l (mem_of_mem_erase hl)
      started_cases := fun x hx => ?_ }, { h.answered with }⟩
  · refine mem_filter.trans ?_
    rw [h.handled.persisting, decide_eq_true_iff]
    exact (hrooms r).symm
  · obtain ⟨hne, hl⟩ := h.handled.mem_erase.mp hl
    rw [hqueues, lookup_erase_ne]
    · exact h.handled.loop_queue l hl q' hq'
    · exact fun heq => hne (h.handled.loop_eq hl hlp heq)
  · obtain ⟨q', hq'⟩ := Dict.exists_lookup hr
    obtain ⟨hne, hlookup'⟩ := hlookup r q' hq'
    refine .inl ((hrooms r).mpr ⟨?_, hne⟩)
    exact (h.handled.handled r (Dict.mem_of_lookup hlookup')).resolve_right not_mem_nil
  · refine (h.ordered.order r).trans ?_
    congr 1
    by_cases hr : r = lp.roomId
    · rw [hr, waitingIn_of_lookup hq, hdeque, waitingIn, hqueues, lookup_erase]
    · rw [waitingIn, waitingIn, hqueues, lookup_erase_ne hr]
      rfl
  · exact h.started_erase hx (by simp [hnone])

/-- What a step of the generator does, seen from the state with the loop's deque
open. -/
theorem Inv.next_cases (h : Inv s) (hs : s.next lp = some s') :
    lp ∈ s.loops ∧ lp.item = none ∧ Inv s' ∧ s'.nextItem = s.nextItem ∧
      ((s'.loops = s.loops.erase lp ∧ s'.started = s.started) ∨
        ∃ q i, s'.loops = ⟨lp.roomId, some q, some i⟩ :: s.loops.erase lp ∧
          s'.started = s.started ++ [(lp.roomId, i)]) := by
  obtain ⟨⟨hlp, hnone⟩, hs⟩ := ite_none_right_eq_some.mp hs
  obtain ⟨hinv, hloops, hq⟩ := h.openQueue hlp
  have hframe : (s.openQueue lp).2.nextItem = s.nextItem ∧ (s.openQueue lp).2.started = s.started := by
    unfold EventPeristenceQueue.openQueue EventPeristenceQueue.setdefaultQueue
    split
    · exact ⟨rfl, rfl⟩
    · split <;> exact ⟨rfl, rfl⟩
  rw [← hloops] at hlp
  obtain rfl := some.inj hs
  unfold popleft
  cases hdeque : (s.openQueue lp).2.deques (s.openQueue lp).1 with
  | nil =>
    refine ⟨hloops ▸ hlp, hnone, hinv.popleft_nil hlp hnone hq hdeque, hframe.1, .inl ⟨?_, hframe.2⟩⟩
    exact congrArg (List.erase · lp) hloops
  | cons i rest =>
    refine ⟨hloops ▸ hlp, hnone, hinv.popleft_cons hlp hnone hq hdeque, hframe.1,
      .inr ⟨(s.openQueue lp).1, i, ?_, ?_⟩⟩
    · rw [hloops]
    · rw [hframe.2]

/-! ## Whole runs -/

theorem Inv.init : Inv (init : EventPeristenceQueue ρ ε χ α) := by
  have hlookup : ∀ r, (∅ : Dict ρ ℕ).lookup r = none := fun r => lookup_empty r
  refine ⟨⟨nodup_nil, fun r => Iff.rfl, fun lp hlp => absurd hlp not_mem_nil, ?_, ?_, ?_⟩,
    ⟨?_, rfl⟩, ⟨fun c hc => absurd hc not_mem_nil, fun i hi => absurd hi (Nat.not_lt_zero i), rfl⟩,
    ⟨fun lp hlp => absurd hlp not_mem_nil, ?_, nodup_nil,
      fun x hx => absurd hx not_mem_nil, fun x hx => absurd hx not_mem_nil⟩,
    ⟨?_, ?_, fun i k hk => absurd hk not_mem_nil, fun i hi => rfl⟩⟩
  · intro r q hq
    exact absurd ((hlookup r).symm.trans hq) (by simp)
  · intro r r' q hq
    exact absurd ((hlookup r).symm.trans hq) (by simp)
  · intro r hr
    exact absurd hr (notMem_empty r)
  · intro r
    unfold waitingIn
    rfl
  · exact fun i o => ⟨fun h => absurd h (by simp [result, EventPeristenceQueue.init]), nofun⟩
  · exact fun k c hk => absurd hk (by simp [EventPeristenceQueue.init])
  · exact fun k c hk => absurd hk (by simp [EventPeristenceQueue.init])

variable {act : Act ρ ε χ α}

theorem Inv.step (h : Inv s) (hs : s.step act = some s') : Inv s' := by
  cases act with
  | add roomId task => exact some.inj hs ▸ h.addToQueue roomId task
  | observe k => exact h.observe hs
  | next lp => exact (h.next_cases hs).2.2.1
  | complete lp o =>
    obtain ⟨hlp, i, hi⟩ := complete_inv hs
    exact h.complete hlp hi hs

variable {acts : List (Act ρ ε χ α)}

theorem Inv.run (h : Inv s) (hs : s.run acts = some s') : Inv s' := by
  induction acts generalizing s with
  | nil => exact some.inj hs ▸ h
  | cons act acts ih =>
    obtain ⟨s₁, hstep, hrun⟩ := bind_eq_some_iff.mp hs
    exact ih (h.step hstep) hrun

/-- What the loops still have to do: an item that waits takes two steps, one in
progress another one, and a loop one more to end. -/
def outstanding (s : EventPeristenceQueue ρ ε χ α) : ℕ :=
  2 * (s.nextItem - s.started.length) + s.loops.length + (s.loops.countP fun lp => lp.item.isSome)

theorem Ordered.started_ids_nodup (h : Ordered s) : (s.started.map snd).Nodup := by
  refine Nodup.map_on ?_ ?_
  · intro x hx y hy heq
    have hroom := h.room_eq (h.queued_of_started hx)
      (by rw [show x.2 = y.2 from heq]; exact h.queued_of_started hy)
    exact Prod.ext hroom heq
  · refine nodup_iff_count_le_one.mpr fun x => ?_
    rw [← count_filter (p := fun y => y.1 = x.1) (decide_eq_true rfl)]
    exact nodup_iff_count_le_one.mp h.started_nodup.of_map x

theorem Ordered.started_length_le (h : Ordered s) : s.started.length ≤ s.nextItem := by
  rw [← length_map, ← length_range (n := s.nextItem)]
  refine (subperm_of_subset h.started_ids_nodup fun i hi => ?_).length_le
  obtain ⟨x, hx, rfl⟩ := mem_map.mp hi
  exact mem_range.mpr (h.lt_of_queued (h.queued_of_started hx))

/-- Every step of a loop leaves less to do. -/
theorem Inv.outstanding_lt (h : Inv s) (hact : act.OfLoop)
    (hs : s.step act = some s') : s'.outstanding < s.outstanding := by
  have hcount : ∀ lp ∈ s.loops, s.loops.length = (s.loops.erase lp).length + 1 ∧
      s.loops.countP (fun lp => lp.item.isSome) =
        (s.loops.erase lp).countP (fun lp => lp.item.isSome) + if lp.item.isSome then 1 else 0 := by
    intro lp hlp
    have hperm := perm_cons_erase hlp
    exact ⟨hperm.length_eq, (hperm.countP_eq _).trans (countP_cons ..)⟩
  cases act with
  | add roomId task => exact absurd hact id
  | observe k => exact absurd hact id
  | next lp =>
    obtain ⟨hlp, hnone, hinv, hnext, hcases⟩ := h.next_cases hs
    obtain ⟨hlength, hcountP⟩ := hcount lp hlp
    rw [hnone] at hcountP
    unfold outstanding
    rcases hcases with ⟨hloops, hstarted⟩ | ⟨q, i, hloops, hstarted⟩
    · rw [hloops, hstarted, hnext, hlength, hcountP]
      simp
    · have hle := hinv.ordered.started_length_le
      rw [hstarted, hnext, length_append, length_singleton] at hle
      rw [hloops, hstarted, hnext, hlength, hcountP, length_append, length_singleton,
        length_cons, countP_cons]
      simp only [Option.isSome_some, Option.isSome_none, if_true, Bool.false_eq_true, if_false]
      omega
  | complete lp o =>
    obtain ⟨hlp, i, hi⟩ := complete_inv hs
    obtain ⟨hlength, hcountP⟩ := hcount lp hlp
    obtain rfl := some.inj ((h.complete_eq hlp hi o).symm.trans hs)
    rw [hi] at hcountP
    unfold outstanding
    rw [hlength, hcountP, length_cons, countP_cons]
    simp

/-- A running loop can take a step, whatever the outcome of its callback. -/
theorem Inv.progress (h : Inv s) (hlp : lp ∈ s.loops) (o : Except χ α) :
    (s.step (.next lp)).isSome ∨ (s.step (.complete lp o)).isSome := by
  cases hi : lp.item with
  | none =>
    refine .inl ?_
    rw [EventPeristenceQueue.step, EventPeristenceQueue.next, if_pos ⟨hlp, hi⟩]
    rfl
  | some i =>
    refine .inr ?_
    rw [EventPeristenceQueue.step, h.complete_eq hlp hi]
    rfl

/-- Nothing is lost, doubled or reordered. -/
structure Exact (s : EventPeristenceQueue ρ ε χ α) : Prop where
  /-- At most one loop, and so at most one item in progress, per room. -/
  one_at_a_time : ∀ r, (s.loops.filter fun lp => lp.roomId = r).length ≤ 1
  /-- The items of a room are started in the order in which they were queued. -/
  in_order : ∀ r, inRoom r s.queued = inRoom r s.started ++ s.waitingIn r
  /-- Every item is queued once, started at most once, and ends at most once. -/
  once : s.queued.map snd = range s.nextItem ∧ (s.started.map snd).Nodup ∧
    (s.finished.map fst).Nodup ∧ ∀ x ∈ s.finished, x.1 ∈ s.started.map snd
  /-- Every call has an item of its room, and the tasks of an item's calls,
  merged in order, are the item's task. -/
  contained : (∀ c ∈ s.calls, (c.roomId, c.endItem) ∈ s.queued) ∧
    ∀ i < s.nextItem, mergeAll (s.tasksOf i) = some (s.items i).task
  /-- The callback was handed the tasks of all calls that an item has: none is
  merged into an item in progress. -/
  handed : s.handed.map fst = s.started.map snd ∧ ∀ x ∈ s.handed, mergeAll (s.tasksOf x.1) = some x.2
  /-- A call that has returned got the outcome of its own item; one that waits
  does so because its item has not ended. -/
  answered : ∀ k c, s.calls[k]? = some c →
    (∀ o, s.callState k = .returned o → (c.endItem, o) ∈ s.finished) ∧
    (s.callState k = .awaiting → ∀ o, (c.endItem, o) ∉ s.finished)
  /-- When no loop runs, no room has a queue, every item has ended, and every
  call has the outcome of its item, or gets it when it asks. -/
  idle : s.loops = [] → (∀ r, r ∉ s.eventPersistQueues) ∧
    (s.finished.map fst).Perm (range s.nextItem) ∧
    ∀ k c, s.calls[k]? = some c → ∃ o, (c.endItem, o) ∈ s.finished ∧
      (s.callState k = .returned o ∨ s.callState k = .adding ∧
        ∃ s', s.step (.observe k) = some s' ∧ s'.callState k = .returned o)

theorem Inv.exact (h : Inv s) : Exact s := by
  refine ⟨fun r => ?_, h.ordered.order, ⟨h.ordered.ids, h.ordered.started_ids_nodup,
    h.processed.finished_nodup, h.processed.finished_started⟩,
    ⟨h.contained.calls_queued, h.contained.tasks⟩, ⟨?_, fun x hx => ?_⟩,
    fun k c hk => ⟨fun o ho => ?_, fun ha o ho => ?_⟩,
    fun hidle => ?_⟩
  · have hnodup : ((s.loops.filter fun lp => lp.roomId = r).map roomId).Nodup :=
      h.handled.loops_nodup.sublist (filter_sublist.map _)
    have hall : ∀ r' ∈ (s.loops.filter fun lp => lp.roomId = r).map roomId, r' = r := by
      intro r' hr'
      obtain ⟨lp, hlp, rfl⟩ := mem_map.mp hr'
      exact of_decide_eq_true (mem_filter.mp hlp).2
    rw [eq_replicate_of_mem hall] at hnodup
    simpa using nodup_replicate.mp hnodup
  · rw [h.contained.handed, map_map]
    rfl
  · rw [h.contained.handed] at hx
    obtain ⟨y, hy, rfl⟩ := mem_map.mp hx
    exact h.contained.tasks y.2 (h.ordered.lt_of_queued (h.ordered.queued_of_started hy))
  · exact (h.processed.result_iff _ o).mp (h.answered.returned k c hk o ho)
  · have hresult := (h.processed.result_iff _ o).mpr ho
    have hmem := h.answered.awaiting k c hk ha
    rw [h.answered.fired _ (by rw [hresult]; simp)] at hmem
    exact nomatch hmem
  · have hqueues : ∀ r, r ∉ s.eventPersistQueues := by
      intro r hr
      rcases h.handled.handled r hr with hr | hr
      · rw [hidle] at hr
        exact nomatch hr
      · exact nomatch hr
    -- with nothing waiting, what was queued was started, and what was started has ended
    have hended : ∀ i < s.nextItem, ∃ o, (i, o) ∈ s.finished := by
      intro i hi
      rw [← mem_range, ← h.ordered.ids] at hi
      obtain ⟨⟨r, j⟩, hx, rfl⟩ := mem_map.mp hi
      have hstarted : (r, j) ∈ s.started := by
        rw [← mem_inRoom, h.ordered.order, waitingIn, lookup_eq_none.mpr (hqueues r), append_nil] at hx
        exact mem_inRoom.mp hx
      rcases h.processed.started_cases _ hstarted with hloop | hresult
      · rw [hidle] at hloop
        obtain ⟨lp, hlp, _⟩ := hloop
        exact nomatch hlp
      · obtain ⟨o, ho⟩ := Option.ne_none_iff_exists'.mp hresult
        exact ⟨o, (h.processed.result_iff j o).mp ho⟩
    refine ⟨hqueues, ?_, fun k c hk => ?_⟩
    · refine (perm_ext_iff_of_nodup h.processed.finished_nodup nodup_range).mpr fun i => ?_
      rw [mem_range]
      constructor
      · intro hi
        obtain ⟨⟨j, o⟩, hx, rfl⟩ := mem_map.mp hi
        exact h.processed.lt_of_result h.ordered hx
      · intro hi
        obtain ⟨o, ho⟩ := hended i hi
        exact mem_map.mpr ⟨(i, o), ho, rfl⟩
    · obtain ⟨o, ho⟩ := hended c.endItem (h.contained.endItem_lt h.ordered (mem_of_getElem? hk))
      have hresult := (h.processed.result_iff _ o).mpr ho
      refine ⟨o, ho, ?_⟩
      cases hstate : s.callState k with
      | adding =>
        refine .inr ⟨rfl, { s with callState := update s.callState k (.returned o) }, ?_, update_self ..⟩
        show s.observe k = _
        unfold EventPeristenceQueue.observe
        rw [hk, hstate]
        dsimp only
        rw [hresult]
      | awaiting =>
        have hmem := h.answered.awaiting k c hk hstate
        rw [h.answered.fired _ (by rw [hresult]; simp)] at hmem
        exact nomatch hmem
      | returned o' =>
        have hresult' := h.answered.returned k c hk o' hstate
        rw [hresult] at hresult'
        rw [some.inj hresult']
        exact .inl rfl

/-- The loops come to an end: they can go on as long as one is running, and no
sequence of their steps is longer than `outstanding`. -/
def Drains (s : EventPeristenceQueue ρ ε χ α) : Prop :=
  (∀ lp ∈ s.loops, ∀ o : Except χ α, (s.step (.next lp)).isSome ∨ (s.step (.complete lp o)).isSome) ∧
  ∀ acts s', (∀ act ∈ acts, act.OfLoop) → s.run acts = some s' → acts.length ≤ s.outstanding

theorem Inv.length_le_outstanding (h : Inv s)
    (hacts : ∀ act ∈ acts, act.OfLoop) (hs : s.run acts = some s') : acts.length ≤ s.outstanding := by
  induction acts generalizing s with
  | nil => exact Nat.zero_le _
  | cons act acts ih =>
    obtain ⟨s₁, hstep, hrun⟩ := bind_eq_some_iff.mp hs
    have hlt := h.outstanding_lt (hacts act mem_cons_self) hstep
    have hle := ih (h.step hstep) (fun a ha => hacts a (mem_cons_of_mem _ ha)) hrun
    rw [length_cons]
    omega

/-- **The queue neither loses nor reorders work**, in any interleaving of calls,
loops and callbacks, whatever the callbacks return or raise. -/
theorem addToQueue_exact {s : EventPeristenceQueue ρ ε χ α} (h : Reachable s) : s.Exact ∧ s.Drains := by
  obtain ⟨acts, hacts⟩ := h
  have hinv : Inv s := Inv.init.run hacts
  exact ⟨hinv.exact, fun lp hlp o => hinv.progress hlp o,
    fun acts s' hloop hrun => hinv.length_le_outstanding hloop hrun⟩

/-- Three calls for the room `7`: the second finds the first item in progress
and queues another one, the third is merged into it. The first callback raises,
the second returns; the loop ends, and the callers of the second item have its
result. -/
theorem addToQueue_exact_merged :
    let acts : List (Act ℕ ℕ ℕ ℕ) := [.add 7 (.persistEvents [1] false), .observe 0,
      .next ⟨7, none, none⟩, .add 7 (.persistEvents [2] false), .observe 1,
      .add 7 (.persistEvents [3] false), .observe 2, .complete ⟨7, some 0, some 0⟩ (.error 500),
      .next ⟨7, some 0, none⟩, .complete ⟨7, some 0, some 1⟩ (.ok 42), .next ⟨7, some 0, none⟩]
    ∃ s, init.run acts = some s ∧ s.loops = [] ∧ s.nextItem = 2 ∧
      (s.items 1).task = .persistEvents [2, 3] false ∧ s.Exact ∧ s.Drains := by
  intro acts
  have hrun : (init.run acts).map (fun s => (s.loops, s.nextItem, (s.items 1).task)) =
      some ([], 2, .persistEvents [2, 3] false) := by decide +kernel
  obtain ⟨s, hs, heq⟩ := map_eq_some_iff.mp hrun
  simp only [Prod.mk.injEq] at heq
  exact ⟨s, hs, heq.1, heq.2.1, heq.2.2, addToQueue_exact ⟨acts, hs⟩⟩

end EventPeristenceQueue
end Synapse.Storage
