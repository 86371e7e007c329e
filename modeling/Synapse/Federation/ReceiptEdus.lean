import Synapse.Util.Latest
import Synapse.Util.NestedDict
import Synapse.Util.PyValue

/-!
# Queued read receipts

A `PerDestinationQueue` keeps the read receipts that are to be sent in a list of EDUs.  An EDU has at most
one receipt of a user for a room and a receipt type, so receipts for different threads have to go into
different EDUs.  `queue_read_receipt` puts a receipt into the first EDU that has none for the user, or one
of the same thread, which is then replaced.

The thread is looked for at the wrong place: it is in the `data` of a receipt, not beside it.  So an EDU
that has a receipt of the user fits exactly if the new receipt has no thread.  Hence what the EDUs have of
a user is the first receipt, replaced by the latest one without a thread if there is any, followed by all
later receipts with a thread (`holds_queueAll`, `packed_cons`).  These are the latest receipts of all
threads only if receipts for a thread do not come twice, and a first receipt with a thread is not replaced
(`keepsLatest_iff`).
-/

namespace Synapse.Federation

open Synapse.Util List
open NestedDict (entries find find_setInner setInner)

/-! ## The code -/

structure ReadReceipt where
  roomId : String
  receiptType : String
  userId : String
  eventIds : List String
  threadId : Option String
  data : PyDict

/-- `room_id -> receipt_type -> user_id -> receipt_dict`. -/
abbrev ReceiptEdu := NestedDict String String String PyDict

/-- `serialized_receipt`. -/
def serializedReceipt (receipt : ReadReceipt) : PyDict :=
  let data :=
    match receipt.threadId with
    | some threadId => PyDict.set receipt.data "thread_id" (.str threadId)
    | none => receipt.data
  [("event_ids", .list (receipt.eventIds.map .str)), ("data", .dict data)]

/-- `None` or a text. -/
def threadValue : Option String → PyValue
  | none => .none
  | some threadId => .str threadId

/-- The receipt goes into an EDU with this content. -/
def fits (receipt : ReadReceipt) (content : Dict String PyDict) : Bool :=
  match content.lookup receipt.userId with
  | none => true
  | some queued => (PyDict.getD queued "thread_id" .none).scalarEq (threadValue receipt.threadId)

def newEdu (receipt : ReadReceipt) : ReceiptEdu :=
  Dict.single receipt.roomId (Dict.single receipt.receiptType
    (Dict.single receipt.userId (serializedReceipt receipt)))

/-- `queue_read_receipt`, on `_pending_receipt_edus`. -/
def queueReadReceipt (receipt : ReadReceipt) : List ReceiptEdu → List ReceiptEdu
  | [] => [newEdu receipt]
  | edu :: edus =>
    let content := edu.inner receipt.roomId receipt.receiptType
    if fits receipt content then
      edu.setInner receipt.roomId receipt.receiptType
        (content.insert receipt.userId (serializedReceipt receipt)) :: edus
    else
      edu.setInner receipt.roomId receipt.receiptType content :: queueReadReceipt receipt edus

variable (receipts : List ReadReceipt)

def queueAll : List ReceiptEdu := receipts.foldl (fun edus receipt => queueReadReceipt receipt edus) []

/-! ## What the EDUs should have -/

/-- Room, receipt type and user. -/
abbrev ReceiptKey := String × String × String

def ReadReceipt.key (receipt : ReadReceipt) : ReceiptKey :=
  (receipt.roomId, receipt.receiptType, receipt.userId)

open ReadReceipt (eventIds threadId)

variable (edus : List ReceiptEdu)

/-- The EDUs have the latest receipt of each room, receipt type, user and thread, nothing else, and each
of them at most one for a room, receipt type and user. -/
def KeepsLatest : Prop := (edus.flatMap entries).Perm
      ((lastOfEach (fun receipt => (receipt.key, receipt.threadId)) receipts).map fun receipt =>
        (receipt.key, serializedReceipt receipt)) ∧
    ∀ edu ∈ edus, (edu.entries.map Prod.fst).Nodup

/-- Receipts of one room, receipt type and user whose latest are kept: after the first one, no thread
comes twice; and the thread of the first one comes again exactly if there is a receipt without a
thread. -/
def NoneLost : List ReadReceipt → Prop
  | [] => True
  | first :: rest =>
    ((rest.map threadId).filter Option.isSome).Nodup ∧ (first.threadId ≠ none →
        (first.threadId ∈ rest.map threadId ↔ none ∈ rest.map threadId))

/-! ## An EDU -/

variable {receipt : ReadReceipt} {key : ReceiptKey}

theorem find_newEdu : find (newEdu receipt) key =
      if key = receipt.key then some (serializedReceipt receipt) else none := by
  show find (setInner ∅ receipt.roomId receipt.receiptType
    (Dict.single receipt.userId (serializedReceipt receipt))) key = _
  obtain ⟨room, type, user⟩ := key
  rw [find_setInner]
  unfold ReadReceipt.key
  by_cases hcontent : room = receipt.roomId ∧ type = receipt.receiptType
  · rw [if_pos hcontent, Dict.lookup_single]
    by_cases huser : user = receipt.userId
    · rw [if_pos huser, if_pos (by rw [hcontent.1, hcontent.2, huser])]
    · rw [if_neg huser, if_neg (by simp [huser])]
  · rw [if_neg hcontent, if_neg (fun h => hcontent ⟨congrArg (·.1) h, congrArg (·.2.1) h⟩)]
    rfl

/-- Where the user has a receipt already, one without a thread fits, and no other. -/
theorem fits_of_lookup {receipt queued : ReadReceipt} {content : Dict String PyDict}
    (h : content.lookup receipt.userId = some (serializedReceipt queued)) :
    fits receipt content = receipt.threadId.isNone := by
  unfold fits
  rw [h]
  dsimp only
  cases receipt.threadId with
  | none => rfl
  | some threadId => rfl

/-! ## Queueing -/

/-- What the EDUs have for a key, EDU by EDU. -/
def held (key : ReceiptKey) : List (Option PyDict) := edus.map fun edu => edu.find key

/-- The receipts of a key after another one has been queued. -/
def packOne (queued : List ReadReceipt) (receipt : ReadReceipt) : List ReadReceipt :=
  match receipt.threadId with
  | none => receipt :: queued.tail
  | some _ => queued ++ [receipt]

theorem packOne_nil (receipt : ReadReceipt) : packOne [] receipt = [receipt] := by
  unfold packOne
  split
  · rfl
  · rfl

/-- The receipts of a key are in the first EDUs, one in each. -/
def Holds (key : ReceiptKey) (queued : List ReadReceipt) : Prop := ∃ n, held edus key =
    queued.map (fun receipt => some (serializedReceipt receipt)) ++ replicate n none

/-- A receipt is put into the first EDU of its key, or behind the last one. -/
theorem Holds.queue_self : ∀ {edus : List ReceiptEdu} {queued : List ReadReceipt},
    Holds edus receipt.key queued →
      Holds (queueReadReceipt receipt edus) receipt.key (packOne queued receipt)
  | [], queued, ⟨n, h⟩ => by
    obtain ⟨hqueued, _⟩ := append_eq_nil_iff.mp h.symm
    rw [map_eq_nil_iff.mp hqueued, packOne_nil]
    refine ⟨0, ?_⟩
    show [find (newEdu receipt) receipt.key] = _
    rw [find_newEdu, if_pos rfl]
    rfl
  | edu :: edus, queued, ⟨n, h⟩ => by
    unfold queueReadReceipt
    have hcons : edu.find receipt.key :: held edus receipt.key = _ := h
    have hput : ∀ content, find (edu.setInner receipt.roomId receipt.receiptType content)
        receipt.key = content.lookup receipt.userId := fun content => by
      rw [find_setInner, if_pos ⟨rfl, rfl⟩]
      rfl
    cases queued with
    | nil =>
      -- the EDU has no receipt of the user
      match n, hcons with
      | n + 1, hcons =>
        obtain ⟨hnone, hrest⟩ := cons.inj hcons
        have hfits : fits receipt (edu.inner receipt.roomId receipt.receiptType) = true := by
          unfold fits
          rw [show (edu.inner receipt.roomId receipt.receiptType).lookup receipt.userId = none from hnone]
        refine ⟨n, ?_⟩
        rw [if_pos hfits, packOne_nil]
        show find _ receipt.key :: held edus receipt.key = _
        rw [hput, AList.lookup_insert, hrest]
        rfl
    | cons first queued =>
      obtain ⟨hfirst, hrest⟩ := cons.inj hcons
      have hfits : fits receipt (edu.inner receipt.roomId receipt.receiptType) =
          receipt.threadId.isNone := fits_of_lookup hfirst
      dsimp only
      rw [hfits]
      cases hthread : receipt.threadId with
      | none =>
        refine ⟨n, ?_⟩
        unfold packOne
        rw [hthread, if_pos Option.isNone_none]
        show find _ receipt.key :: held edus receipt.key = _
        rw [hput, AList.lookup_insert, hrest]
        rfl
      | some threadId =>
        have hedus : Holds edus receipt.key queued := ⟨n, hrest⟩
        obtain ⟨m, ih⟩ := hedus.queue_self
        refine ⟨m, ?_⟩
        unfold packOne at ih ⊢
        rw [hthread] at ih ⊢
        show find _ receipt.key :: held (queueReadReceipt receipt edus) receipt.key = _
        rw [hput, ih]
        exact congrArg (· :: _) hfirst

theorem Holds.queue_other (hkey : key ≠ receipt.key) :
    ∀ {edus : List ReceiptEdu} {queued : List ReadReceipt},
      Holds edus key queued → Holds (queueReadReceipt receipt edus) key queued := by
  have hheld : ∀ edus, ∃ m, held (queueReadReceipt receipt edus) key =
      held edus key ++ replicate m none := by
    intro edus
    induction edus with
    | nil =>
      refine ⟨1, ?_⟩
      show [find (newEdu receipt) key] = _
      rw [find_newEdu, if_neg hkey]
      rfl
    | cons edu edus ih =>
      have hput : ∀ content, (∀ user, user ≠ receipt.userId → content.lookup user =
            (edu.inner receipt.roomId receipt.receiptType).lookup user) →
          find (edu.setInner receipt.roomId receipt.receiptType content) key = edu.find key := by
        intro content hcontent
        rw [find_setInner]
        split
        next h =>
          obtain ⟨room, type, user⟩ := key
          obtain ⟨rfl, rfl⟩ := h
          exact hcontent user fun huser => hkey (by rw [huser]; rfl)
        · rfl
      unfold queueReadReceipt
      dsimp only
      split
      · refine ⟨0, ?_⟩
        show find _ key :: held edus key = _
        rw [hput _ fun user huser => AList.lookup_insert_ne huser]
        exact (append_nil _).symm
      · obtain ⟨m, ih⟩ := ih
        refine ⟨m, ?_⟩
        show find _ key :: held (queueReadReceipt receipt edus) key = _
        rw [hput _ fun _ _ => rfl, ih]
        rfl
  intro edus queued h
  obtain ⟨n, hn⟩ := h
  obtain ⟨m, hm⟩ := hheld edus
  refine ⟨n + m, ?_⟩
  rw [hm, hn, append_assoc, replicate_append_replicate]

/-- The receipts of a key after a sequence of calls. -/
def packed : List ReadReceipt := receipts.foldl packOne []

/-- **What the EDUs have of a key** depends on the receipts of that key only. -/
theorem holds_queueAll (key : ReceiptKey) (receipts : List ReadReceipt) :
    Holds (queueAll receipts) key (packed (receipts.filter fun receipt => receipt.key = key)) := by
  induction receipts using reverseRecOn with
  | nil => exact ⟨0, rfl⟩
  | append_singleton receipts receipt ih =>
    have hqueue : queueAll (receipts ++ [receipt]) = queueReadReceipt receipt (queueAll receipts) := by
      unfold queueAll
      rw [foldl_append]
      rfl
    rw [hqueue, filter_append]
    by_cases hkey : receipt.key = key
    · have hone : [receipt].filter (fun receipt => receipt.key = key) = [receipt] :=
        filter_cons_of_pos (decide_eq_true hkey)
      unfold packed
      rw [hone, foldl_append]
      subst hkey
      exact ih.queue_self
    · have hnone : [receipt].filter (fun receipt => receipt.key = key) = [] :=
        filter_cons_of_neg (by simpa using hkey)
      rw [hnone, append_nil]
      exact ih.queue_other (Ne.symm hkey)

/-- **The first receipt, replaced by the latest one without a thread, and all others with a thread.** -/
theorem packed_cons (first : ReadReceipt) (rest : List ReadReceipt) : packed (first :: rest) =
      (rest.filter fun receipt => !receipt.threadId.isSome).getLast?.getD first ::
        rest.filter fun receipt => receipt.threadId.isSome := by
  induction rest using reverseRecOn with
  | nil => exact packOne_nil first
  | append_singleton rest receipt ih =>
    have hpacked : packed (first :: (rest ++ [receipt])) = packOne (packed (first :: rest)) receipt := by
      unfold packed
      rw [← cons_append, foldl_append]
      rfl
    rw [hpacked, ih, filter_append, filter_append]
    unfold packOne
    cases hthread : receipt.threadId with
    | none => simp [hthread]
    | some threadId => simp [hthread]

/-! ## The receipts of one key -/

/-- The thread in the data of a receipt. -/
def threadOf (queued : PyDict) : Option String :=
  match queued.lookup "data" with
  | some (.dict data) =>
    match data.lookup "thread_id" with
    | some (.str threadId) => some threadId
    | _ => none
  | _ => none

theorem threadOf_serializedReceipt (h : receipt.threadId.isSome = true) :
    threadOf (serializedReceipt receipt) = receipt.threadId := by
  obtain ⟨threadId, hthread⟩ := Option.isSome_iff_exists.mp h
  have hdata : (serializedReceipt receipt).lookup "data" =
      some (.dict (PyDict.set receipt.data "thread_id" (.str threadId))) := by
    unfold serializedReceipt
    rw [hthread]
    simp [lookup_cons]
  unfold threadOf
  rw [hdata]
  dsimp only
  rw [PyDict.lookup_set_self, hthread]

/-- All receipts with a thread are kept only if no thread comes twice. -/
theorem perm_lastOfEach_iff {receipts : List ReadReceipt} : (receipts.map serializedReceipt).Perm
        ((lastOfEach threadId receipts).map serializedReceipt) ↔
      (receipts.map threadId).Nodup := by
  constructor
  · intro h
    have hlength := h.length_eq
    rw [length_map, length_map] at hlength
    exact nodup_of_length_lastOfEach hlength.symm
  · intro h
    rw [lastOfEach_of_nodup h]

/-- The first receipt may be missing if its thread comes again. -/
theorem perm_lastOfEach_cons_iff {first : ReadReceipt} {receipts : List ReadReceipt}
    (hthreads : ∀ receipt ∈ first :: receipts, receipt.threadId.isSome = true) :
    (receipts.map serializedReceipt).Perm
        ((lastOfEach threadId (first :: receipts)).map serializedReceipt) ↔
      (receipts.map threadId).Nodup ∧ first.threadId ∈ receipts.map threadId := by
  constructor
  · intro h
    have hof : ∀ {rs : List ReadReceipt}, (∀ r ∈ rs, r ∈ first :: receipts) →
        (rs.map serializedReceipt).map threadOf = rs.map threadId := by
      intro rs hrs
      rw [map_map]
      exact map_congr_left fun r hr => threadOf_serializedReceipt (hthreads r (hrs r hr))
    have hperm := h.map threadOf
    rw [hof fun r hr => mem_cons_of_mem _ hr, hof (lastOfEach_sublist _).subset] at hperm
    refine ⟨hperm.nodup_iff.mpr (nodup_map_lastOfEach _), hperm.mem_iff.mpr ?_⟩
    exact mem_map_lastOfEach.mpr (mem_map_of_mem mem_cons_self)
  · intro h
    unfold lastOfEach
    rw [if_pos h.2, lastOfEach_of_nodup h.1]

/-- The latest receipts are those with a thread and the one without. -/
theorem lastOfEach_perm : (lastOfEach threadId receipts).Perm
      ((receipts.filter fun receipt => !receipt.threadId.isSome).getLast?.toList ++
        lastOfEach threadId (receipts.filter fun receipt => receipt.threadId.isSome)) := by
  have hsplit := filter_append_perm (fun receipt => receipt.threadId.isSome)
    (lastOfEach threadId receipts)
  have hnone : ∀ receipt ∈ receipts.filter fun receipt => !receipt.threadId.isSome,
      receipt.threadId = none := by
    intro receipt hmem
    simpa using (mem_filter.mp hmem).2
  have hthreads : (lastOfEach threadId receipts).filter (fun receipt => receipt.threadId.isSome) =
      _ := lastOfEach_filter Option.isSome receipts
  have hothers : (lastOfEach threadId receipts).filter (fun receipt => !receipt.threadId.isSome) =
      _ := lastOfEach_filter (fun thread : Option String => !thread.isSome) receipts
  rw [hthreads, hothers, lastOfEach_of_const hnone] at hsplit
  exact hsplit.symm.trans perm_append_comm

/-- **For one key the latest receipts are kept** exactly if none is lost. -/
theorem packed_perm_iff : ((packed receipts).map serializedReceipt).Perm
        ((lastOfEach threadId receipts).map serializedReceipt) ↔ NoneLost receipts := by
  cases receipts with
  | nil => exact iff_of_true .nil trivial
  | cons first rest =>
    have hlatest := (lastOfEach_perm (first :: rest)).map serializedReceipt
    have hthreads : (rest.map threadId).filter Option.isSome =
        (rest.filter fun receipt => receipt.threadId.isSome).map threadId := filter_map
    rw [packed_cons, (hlatest.congr_right _)]
    unfold NoneLost
    dsimp only
    rw [hthreads]
    cases hfirst : first.threadId with
    | none =>
      -- the slot of the first receipt has the latest one without a thread
      rw [filter_cons_of_pos (by simp [hfirst]), filter_cons_of_neg (by simp [hfirst]),
        getLast?_cons, Option.toList_some, map_cons, map_append, map_singleton,
        singleton_append, perm_cons, perm_lastOfEach_iff]
      exact ⟨fun h => ⟨h, fun hne => absurd rfl hne⟩, And.left⟩
    | some threadId =>
      have hmem : some threadId ∈ rest.map ReadReceipt.threadId ↔ some threadId ∈
          (rest.filter fun receipt => receipt.threadId.isSome).map ReadReceipt.threadId := by
        rw [← hthreads, mem_filter]
        exact ⟨fun h => ⟨h, rfl⟩, And.left⟩
      have hsome : ∀ receipt ∈ first :: rest.filter fun receipt => receipt.threadId.isSome,
          receipt.threadId.isSome = true := by
        intro receipt hmem
        rcases mem_cons.mp hmem with rfl | hmem
        · rw [hfirst]
          rfl
        · exact (mem_filter.mp hmem).2
      have hnone : none ∈ rest.map ReadReceipt.threadId ↔
          (rest.filter fun receipt => !receipt.threadId.isSome) ≠ [] := by
        simp
      rw [filter_cons_of_neg (by simp [hfirst]), filter_cons_of_pos (by simp [hfirst]), hmem, hnone]
      cases hothers : (rest.filter fun receipt => !receipt.threadId.isSome).getLast? with
      | none =>
        rw [getLast?_eq_none_iff] at hothers
        rw [Option.toList_none, nil_append, Option.getD_none, perm_lastOfEach_iff, map_cons,
          nodup_cons, hfirst, and_comm]
        refine and_congr_right fun _ => ⟨fun hnot _ => ?_, fun h hin => ?_⟩
        · exact iff_of_false hnot fun hne => hne hothers
        · exact (h (Option.some_ne_none _)).mp hin hothers
      | some latest =>
        have hne : (rest.filter fun receipt => !receipt.threadId.isSome) ≠ [] := by
          intro hnil
          rw [hnil] at hothers
          exact nomatch hothers
        rw [Option.toList_some, map_append, map_singleton, singleton_append,
          Option.getD_some, map_cons, perm_cons, perm_lastOfEach_cons_iff hsome, hfirst]
        refine and_congr_right fun _ => ⟨fun hin _ => ?_, fun h => ?_⟩
        · exact iff_of_true hin hne
        · exact (h (Option.some_ne_none _)).mpr hne

/-! ## All EDUs -/

theorem Holds.filter_entries {edus : List ReceiptEdu} {queued : List ReadReceipt}
    (h : Holds edus key queued) : ((edus.flatMap entries).filter fun entry => entry.1 = key) =
      (queued.map serializedReceipt).map (key, ·) := by
  obtain ⟨n, hheld⟩ := h
  have hentries : ((edus.flatMap entries).filter fun entry => entry.1 = key) =
      (held edus key).flatMap fun found => found.toList.map (key, ·) := by
    unfold held
    rw [filter_flatMap, flatMap_map]
    exact flatMap_congr fun edu _ => edu.filter_entries key
  have hnone : ∀ m, (replicate m (none : Option PyDict)).flatMap
      (fun found => found.toList.map (key, ·)) = [] := fun m =>
    flatMap_eq_nil_iff.mpr fun found hfound => by
      rw [eq_of_mem_replicate hfound]
      rfl
  rw [hentries, hheld, flatMap_append, hnone, append_nil, flatMap_map, map_map]
  exact flatMap_pure_eq_map _ _

/-- **Queued receipts keep the latest per thread** exactly if for no room, receipt type and user any is
lost. -/
theorem keepsLatest_iff : KeepsLatest receipts (queueAll receipts) ↔
      ∀ key, NoneLost (receipts.filter fun receipt => receipt.key = key) := by
  have hkey : ∀ key,
      (((queueAll receipts).flatMap entries).filter fun entry => entry.1 = key).Perm
          (((lastOfEach (fun receipt => (receipt.key, receipt.threadId)) receipts).map fun receipt =>
            (receipt.key, serializedReceipt receipt)).filter fun entry => entry.1 = key) ↔
        NoneLost (receipts.filter fun receipt => receipt.key = key) := by
    intro key
    have hlatest : ((lastOfEach (fun receipt => (receipt.key, receipt.threadId)) receipts).filter
        fun receipt => receipt.key = key) = lastOfEach threadId
          (receipts.filter fun receipt => receipt.key = key) := by
      have hcongr : lastOfEach (fun receipt => (receipt.key, receipt.threadId))
          (receipts.filter fun receipt => receipt.key = key) = lastOfEach threadId
            (receipts.filter fun receipt => receipt.key = key) := lastOfEach_congr fun r hr r' hr' => by
        have hr : r.key = key := of_decide_eq_true (mem_filter.mp hr).2
        have hr' : r'.key = key := of_decide_eq_true (mem_filter.mp hr').2
        rw [Prod.mk.injEq, hr, hr']
        exact and_iff_right rfl
      have hfilter : ((lastOfEach (fun receipt => (receipt.key, receipt.threadId)) receipts).filter
          fun receipt => (receipt.key, receipt.threadId).1 = key) = _ :=
        lastOfEach_filter (fun tuple : ReceiptKey × Option String => decide (tuple.1 = key)) receipts
      rw [← hcongr]
      exact hfilter
    have hentries : ((lastOfEach (fun receipt => (receipt.key, receipt.threadId)) receipts).map
        fun receipt => (receipt.key, serializedReceipt receipt)).filter (fun entry => entry.1 = key) =
          ((lastOfEach threadId (receipts.filter fun receipt => receipt.key = key)).map
            serializedReceipt).map (key, ·) := by
      rw [filter_map, map_map, ← hlatest]
      refine map_congr_left fun receipt hmem => ?_
      have hkey : receipt.key = key := of_decide_eq_true (mem_filter.mp hmem).2
      exact congrArg (·, _) hkey
    have hqueued := (holds_queueAll key receipts).filter_entries
    rw [← packed_perm_iff, hqueued, hentries]
    refine ⟨fun h => ?_, fun h => h.map _⟩
    have hback : ∀ queued : List PyDict, (queued.map (key, ·)).map Prod.snd = queued := fun queued => by
      rw [map_map]
      exact map_id queued
    have hsnd := h.map Prod.snd
    rwa [hback, hback] at hsnd
  refine ⟨fun h key => (hkey key).mp (h.1.filter _), fun h => ⟨?_, ?_⟩⟩
  · exact perm_iff_filter_perm.mpr fun key => (hkey key).mpr (h key)
  · exact fun edu _ => edu.nodup_entries

/-! ## Receipts that are not kept, and one that is

Alice reads two events of one thread, or an event of a thread and then one outside of threads. -/

def alicesReceipt (eventId : String) (threadId : Option String) : ReadReceipt :=
  ⟨"!room", "m.read", "@alice:hs", [eventId], threadId, []⟩

/-- The earlier receipt of a thread is still there; and a receipt of a thread is lost to one without. -/
theorem alicesReceipts_notKept :
    (packed [alicesReceipt "$1" (some "t"), alicesReceipt "$2" (some "t")]).map eventIds =
        [["$1"], ["$2"]] ∧
      ¬KeepsLatest [alicesReceipt "$1" (some "t"), alicesReceipt "$2" (some "t")]
        (queueAll [alicesReceipt "$1" (some "t"), alicesReceipt "$2" (some "t")]) ∧
      (packed [alicesReceipt "$1" (some "t"), alicesReceipt "$2" none]).map eventIds = [["$2"]] ∧
      ¬KeepsLatest [alicesReceipt "$1" (some "t"), alicesReceipt "$2" none]
        (queueAll [alicesReceipt "$1" (some "t"), alicesReceipt "$2" none]) := by
  -- the number of receipts in the EDUs is not the number of threads
  refine ⟨rfl, fun h => ?_, rfl, fun h => ?_⟩
  · exact absurd h.1.length_eq (by decide +kernel)
  · exact absurd h.1.length_eq (by decide +kernel)

end Synapse.Federation
