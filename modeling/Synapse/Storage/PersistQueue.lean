import Synapse.Util.Dict

/-!
# The per-room persistence queue

`_EventPeristenceQueue` of `synapse/storage/controllers/persist_events.py`
hands tasks to a callback, one at a time per room. A call of `add_to_queue`
merges its task into the last item that waits for the room, or queues a new
item, and starts a loop for the room unless one is running; then it waits for
the item's deferred. The loop pops items until the queue is empty.

Everything happens on one thread, and control changes hands only at the awaits:
at the callback, and at `deferred.callback`, which runs the callers that wait
for the item before it returns. The steps of `step` are the blocks in between.
They may be taken in any order, so a block that the code runs straight after
another one (the loop's first `popleft` after the `add_to_queue` that started
it) is here also allowed to come later.

Deques, items and calls are objects that others hold references to: a loop
keeps the deque it found when it started, a call keeps its item. They are
numbered in the order of their creation, and the dictionary maps a room to the
number of its deque, so that nothing rules out beforehand that a loop drains a
deque which is no longer the room's.
-/

namespace Synapse.Storage

open Synapse.Util
open Function (update)

/-- `_EventPersistQueueTask`. -/
inductive EventPersistQueueTask (ε : Type) where
  | persistEvents (eventsAndContexts : List ε) (backfilled : Bool)
  | updateCurrentState
deriving DecidableEq

namespace EventPersistQueueTask

/-- `try_merge`: the task after it took in the other one, or `none` if it
refuses. -/
def tryMerge {ε : Type} : EventPersistQueueTask ε → EventPersistQueueTask ε →
    Option (EventPersistQueueTask ε)
  | persistEvents evs backfilled, persistEvents evs' backfilled' =>
    if backfilled ≠ backfilled' then none else some (persistEvents (evs ++ evs') backfilled)
  | updateCurrentState, updateCurrentState => some updateCurrentState
  | _, _ => none

/-- A task that has taken in the ones after it, in order. -/
def mergeAll {ε : Type} : List (EventPersistQueueTask ε) → Option (EventPersistQueueTask ε)
  | [] => none
  | task :: tasks => tasks.foldlM tryMerge task

theorem mergeAll_concat {ε : Type} {tasks : List (EventPersistQueueTask ε)}
    {task last : EventPersistQueueTask ε} (h : mergeAll tasks = some task) :
    mergeAll (tasks ++ [last]) = task.tryMerge last := by
  cases tasks with
  | nil => exact absurd h (by simp [mergeAll])
  | cons t ts =>
    show (ts ++ [last]).foldlM tryMerge t = _
    rw [List.foldlM_append, show ts.foldlM tryMerge t = some task from h]
    exact bind_pure (task.tryMerge last)

end EventPersistQueueTask

/-- `ObservableDeferred`: its `_result`, and the calls whose deferreds are in
`_observers`. -/
structure ObservableDeferred (χ α : Type) where
  result : Option (Except χ α)
  observers : List ℕ

/-- `_EventPersistQueueItem`. -/
structure EventPersistQueueItem (ε χ α : Type) where
  task : EventPersistQueueTask ε
  deferred : ObservableDeferred χ α

/-- The local variables of a call of `add_to_queue`. -/
structure AddCall (ρ ε : Type) where
  roomId : ρ
  task : EventPersistQueueTask ε
  endItem : ℕ

/-- Where a call is: it has not observed its item's deferred yet, it awaits it,
or it has returned or raised. -/
inductive CallState (χ α : Type) where
  | adding
  | awaiting
  | returned (outcome : Except χ α)

/-- A running `handle_queue_loop`: the deque it drains, once the generator has
started, and the item whose callback it awaits. -/
structure QueueLoop (ρ : Type) where
  roomId : ρ
  queue : Option ℕ
  item : Option ℕ
deriving DecidableEq

/-- `_EventPeristenceQueue` with the objects that it refers to, the loops and
calls in progress, and the history: the items in the order in which they were
queued and handed to the callback, the tasks that they were handed over with,
and how each callback ended. -/
structure EventPeristenceQueue (ρ ε χ α : Type) where
  eventPersistQueues : Dict ρ ℕ
  currentlyPersistingRooms : List ρ
  deques : ℕ → List ℕ
  nextDeque : ℕ
  items : ℕ → EventPersistQueueItem ε χ α
  nextItem : ℕ
  loops : List (QueueLoop ρ)
  calls : List (AddCall ρ ε)
  callState : ℕ → CallState χ α
  queued : List (ρ × ℕ)
  started : List (ρ × ℕ)
  handed : List (ℕ × EventPersistQueueTask ε)
  finished : List (ℕ × Except χ α)

namespace EventPeristenceQueue
variable {ρ ε χ α : Type}

/-- `__init__`. Objects that do not exist yet hold arbitrary values. -/
def init : EventPeristenceQueue ρ ε χ α where
  eventPersistQueues := ∅
  currentlyPersistingRooms := []
  deques := fun _ => []
  nextDeque := 0
  items := fun _ => ⟨.updateCurrentState, ⟨none, []⟩⟩
  nextItem := 0
  loops := []
  calls := []
  callState := fun _ => .adding
  queued := []
  started := []
  handed := []
  finished := []

variable (s : EventPeristenceQueue ρ ε χ α) (i : ℕ)

/-- `_result` of the item's deferred. -/
def result : Option (Except χ α) := (s.items i).deferred.result

/-- `_observers` of the item's deferred. -/
def observers : List ℕ := (s.items i).deferred.observers

/-- The tasks of the calls that wait for the item. -/
def tasksOf : List (EventPersistQueueTask ε) := (s.calls.filter fun c => c.endItem = i).map AddCall.task

/-! ## The blocks of the code -/

/-- The task goes into the last item of the deque, or into a new item. Returns
`end_item`. -/
def enqueue (roomId : ρ) (task : EventPersistQueueTask ε) (q : ℕ) : ℕ × EventPeristenceQueue ρ ε χ α :=
  match (s.deques q).getLast?.bind fun i => ((s.items i).task.tryMerge task).map (i, ·) with
  | some (i, merged) =>
    (i, { s with items := update s.items i { s.items i with task := merged } })
  | none =>
    (s.nextItem, { s with
      items := update s.items s.nextItem ⟨task, ⟨none, []⟩⟩
      nextItem := s.nextItem + 1
      deques := update s.deques q (s.deques q ++ [s.nextItem])
      queued := s.queued ++ [(roomId, s.nextItem)] })

/-- A call has found its `end_item`. -/
def recordCall (c : AddCall ρ ε) : EventPeristenceQueue ρ ε χ α :=
  { s with
    calls := s.calls ++ [c]
    callState := update s.callState s.calls.length .adding }

/-- `end_item.deferred.observe()`, and the return if the item is done. -/
def observe (k : ℕ) : Option (EventPeristenceQueue ρ ε χ α) :=
  match s.calls[k]?, s.callState k with
  | some c, .adding =>
    match s.result c.endItem with
    | none =>
      some { s with
        items := update s.items c.endItem { s.items c.endItem with
          deferred := ⟨none, s.observers c.endItem ++ [k]⟩ }
        callState := update s.callState k .awaiting }
    | some outcome => some { s with callState := update s.callState k (.returned outcome) }
  | _, _ => none

/-- `item.deferred.callback(ret)` or `item.deferred.errback()`: every observer
gets the outcome. `none` is the `AlreadyCalledError` of a second call. -/
def fire (outcome : Except χ α) : Option (EventPeristenceQueue ρ ε χ α) :=
  match s.result i with
  | some _ => none
  | none =>
    some { s with
      items := update s.items i { s.items i with deferred := ⟨some outcome, []⟩ }
      callState := fun k => if k ∈ s.observers i then .returned outcome else s.callState k
      finished := s.finished ++ [(i, outcome)] }

variable [DecidableEq ρ]

/-- `self._event_persist_queues.setdefault(room_id, deque())`. -/
def setdefaultQueue (roomId : ρ) : ℕ × EventPeristenceQueue ρ ε χ α :=
  match s.eventPersistQueues.lookup roomId with
  | some q => (q, s)
  | none =>
    (s.nextDeque, { s with
      eventPersistQueues := s.eventPersistQueues.insert roomId s.nextDeque
      deques := update s.deques s.nextDeque []
      nextDeque := s.nextDeque + 1 })

/-- `_handle_queue`. -/
def handleQueue (roomId : ρ) : EventPeristenceQueue ρ ε χ α :=
  if roomId ∈ s.currentlyPersistingRooms then s
  else { s with
    currentlyPersistingRooms := roomId :: s.currentlyPersistingRooms
    loops := ⟨roomId, none, none⟩ :: s.loops }

/-- `add_to_queue`, up to the point where it observes the deferred. -/
def addToQueue (roomId : ρ) (task : EventPersistQueueTask ε) :
    EventPeristenceQueue ρ ε χ α :=
  let queue := s.setdefaultQueue roomId
  ((queue.2.enqueue roomId task queue.1).2.recordCall
    ⟨roomId, task, (queue.2.enqueue roomId task queue.1).1⟩).handleQueue roomId

variable (lp : QueueLoop ρ)

/-- The `finally` block of `handle_queue_loop`. -/
def finishLoop : EventPeristenceQueue ρ ε χ α :=
  let remainingQueue := s.eventPersistQueues.lookup lp.roomId
  let queues := s.eventPersistQueues.erase lp.roomId
  { s with
    eventPersistQueues :=
      match remainingQueue with
      | some q => if s.deques q = [] then queues else queues.insert lp.roomId q
      | none => queues
    currentlyPersistingRooms := s.currentlyPersistingRooms.filter (· ≠ lp.roomId)
    loops := s.loops.erase lp }

/-- `queue` of `_get_drainining_queue`. -/
def openQueue : ℕ × EventPeristenceQueue ρ ε χ α :=
  match lp.queue with
  | some q => (q, s)
  | none => s.setdefaultQueue lp.roomId

/-- `popleft` and the call of the callback, or the `IndexError` that ends the
loop. -/
def popleft (q : ℕ) : EventPeristenceQueue ρ ε χ α :=
  match s.deques q with
  | i :: rest =>
    { s with
      deques := update s.deques q rest
      loops := ⟨lp.roomId, some q, some i⟩ :: s.loops.erase lp
      started := s.started ++ [(lp.roomId, i)]
      handed := s.handed ++ [(i, (s.items i).task)] }
  | [] => s.finishLoop lp

/-- The loop asks its generator for the next item. -/
def next : Option (EventPeristenceQueue ρ ε χ α) :=
  if lp ∈ s.loops ∧ lp.item = none then
    some ((s.openQueue lp).2.popleft lp (s.openQueue lp).1)
  else none

/-- The callback that the loop awaits returns or raises. An exception out of
the deferred would end the loop. -/
def complete (outcome : Except χ α) : Option (EventPeristenceQueue ρ ε χ α) :=
  if lp ∈ s.loops then
    lp.item.map fun i =>
      match s.fire i outcome with
      | some s => { s with loops := { lp with item := none } :: s.loops.erase lp }
      | none => s.finishLoop lp
  else none

/-- What can happen next. -/
inductive Act (ρ ε χ α : Type) where
  | add (roomId : ρ) (task : EventPersistQueueTask ε)
  | observe (call : ℕ)
  | next (lp : QueueLoop ρ)
  | complete (lp : QueueLoop ρ) (outcome : Except χ α)

/-- The steps of the loops, as opposed to those of the callers. -/
def Act.OfLoop : Act ρ ε χ α → Prop
  | .next _ => True
  | .complete _ _ => True
  | _ => False

def step (s : EventPeristenceQueue ρ ε χ α) : Act ρ ε χ α → Option (EventPeristenceQueue ρ ε χ α)
  | .add roomId task => some (s.addToQueue roomId task)
  | .observe k => s.observe k
  | .next lp => s.next lp
  | .complete lp outcome => s.complete lp outcome

def run (acts : List (Act ρ ε χ α)) : Option (EventPeristenceQueue ρ ε χ α) := acts.foldlM step s

/-- The states that some interleaving leads to. -/
def Reachable : Prop := ∃ acts, init.run acts = some s

end EventPeristenceQueue
end Synapse.Storage
