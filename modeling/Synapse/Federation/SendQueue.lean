import Synapse.Util.Dict
import Synapse.Util.Loops

/-!
# The queue of EDUs for the federation senders

A worker that does not send federation traffic itself keeps its EDUs in `FederationRemoteSendQueue`, by
position, until the federation senders have acknowledged them; what is older than five minutes is dropped.

Two things go wrong.  `pos_time` has the times as keys, so `_clear_queue` takes `position_to_delete` from
the times and not from the positions, and drops every entry, however young, whose position is below a
number of milliseconds.  And `federation_ack` takes the minimum over the senders that have acknowledged
something so far, so a sender that is configured but was not heard of yet is not waited for.  Nothing else
goes wrong: `onlyAllowed_iff` says when entries go too early by the times at which they were queued, their
positions and the acknowledgements.

The order of a `SortedDict` is not modelled: `keys[:bisect_left(x)]` are the keys below `x`.
-/

namespace Synapse.Federation

open List AList
open Synapse.Util

/-- An `Edu`. -/
structure Edu (γ : Type) where
  origin : String
  destination : String
  eduType : String
  content : γ

/-- The queue; keyed EDUs have keys of type `κ`, and presence states are of type `σ`. -/
structure FederationRemoteSendQueue (κ γ σ : Type) where
  serverName : String
  senderInstances : List String
  senderPositions : Dict String ℤ
  presenceMap : Dict String σ
  presenceDestinations : Dict ℤ (String × List String)
  keyedEdu : Dict (String × κ) (Edu γ)
  keyedEduChanged : Dict ℤ (String × κ)
  edus : Dict ℤ (Edu γ)
  pos : ℤ
  posTime : Dict ℤ ℤ

/-- `FIVE_MINUTES_AGO`. -/
def fiveMinutesAgo : ℤ := 5 * 60 * 1000

namespace FederationRemoteSendQueue
variable {κ γ σ : Type} [DecidableEq κ]

def init (serverName : String) (senderInstances : List String) : FederationRemoteSendQueue κ γ σ :=
  ⟨serverName, senderInstances, ∅, ∅, ∅, ∅, ∅, ∅, 1, ∅⟩

variable (q : FederationRemoteSendQueue κ γ σ)

/-- `_next_pos`; the position is the old value of `pos`. -/
def nextPos (now : ℤ) : FederationRemoteSendQueue κ γ σ :=
  { q with pos := q.pos + 1, posTime := q.posTime.insert now q.pos }

/-- `_clear_queue_before_pos`. -/
def clearQueueBeforePos (positionToDelete : ℤ) : FederationRemoteSendQueue κ γ σ :=
  let presenceDestinations := q.presenceDestinations.filterItems fun p _ => positionToDelete ≤ p
  let keyedEduChanged := q.keyedEduChanged.filterItems fun p _ => positionToDelete ≤ p
  { q with
    presenceDestinations
    presenceMap := q.presenceMap.filterItems fun userId _ =>
      userId ∈ presenceDestinations.items.map fun item => item.2.1
    keyedEduChanged
    keyedEdu := q.keyedEdu.filterItems fun key _ =>
      key ∈ keyedEduChanged.items.map fun item => item.2
    edus := q.edus.filterItems fun p _ => positionToDelete ≤ p }

/-- `max(keys[:time])`, the last of the times before the given one. -/
def lastTimeBefore (time : ℤ) : Option ℤ := (q.posTime.keys.filter (· < time)).max?

/-- `_clear_queue`. -/
def clearQueue (now : ℤ) : FederationRemoteSendQueue κ γ σ :=
  match q.lastTimeBefore (now - fiveMinutesAgo) with
  | none => q
  | some positionToDelete =>
    { q with posTime := q.posTime.filterItems fun time _ => now - fiveMinutesAgo ≤ time
      }.clearQueueBeforePos positionToDelete

/-- `build_and_send_edu`; a key that is false is `none`. -/
def buildAndSendEdu (now : ℤ) (destination eduType : String) (content : γ) (key : Option κ) :
    FederationRemoteSendQueue κ γ σ :=
  if destination = q.serverName then q
  else
    let edu := ⟨q.serverName, destination, eduType, content⟩
    match key with
    | some key =>
      { q.nextPos now with
        keyedEdu := q.keyedEdu.insert (destination, key) edu
        keyedEduChanged := q.keyedEduChanged.insert q.pos (destination, key) }
    | none => { q.nextPos now with edus := q.edus.insert q.pos edu }

/-- One turn of the loop of `send_presence_to_destinations`. -/
def sendPresence (now : ℤ) (states : List (String × σ)) (destinations : List String)
    (q : FederationRemoteSendQueue κ γ σ) (state : String × σ) : FederationRemoteSendQueue κ γ σ :=
  { q.nextPos now with
    presenceMap := q.presenceMap.update states
    presenceDestinations := q.presenceDestinations.insert q.pos (state.1, destinations) }

/-- `send_presence_to_destinations`; the states come with their users. -/
def sendPresenceToDestinations (now : ℤ) (states : List (String × σ)) (destinations : List String) :
    FederationRemoteSendQueue κ γ σ := states.foldl (sendPresence now states destinations) q

/-- The token up to which `federation_ack` clears: the minimum over the senders, if there are any. -/
def ackedToken (instanceName : String) (token : ℤ) : ℤ :=
  if q.senderInstances = [] then token
  else ((Dict.items (q.senderPositions.insert instanceName token)).map Prod.snd).min?.getD token

/-- `federation_ack`. -/
def federationAck (instanceName : String) (token : ℤ) : FederationRemoteSendQueue κ γ σ :=
  { q with senderPositions := if q.senderInstances = [] then q.senderPositions
      else q.senderPositions.insert instanceName token
    }.clearQueueBeforePos (q.ackedToken instanceName token)

/-- There is an entry at the position, with what is to be sent. -/
def Queued (p : ℤ) : Prop :=
  (∃ edu, q.edus.lookup p = some edu) ∨ (∃ key, q.keyedEduChanged.lookup p = some key ∧ key ∈ q.keyedEdu) ∨
    ∃ entry, q.presenceDestinations.lookup p = some entry ∧ entry.1 ∈ q.presenceMap

/-- A keyed EDU is the latest for its key. -/
def Latest (p : ℤ) : Prop :=
  ∀ key, q.keyedEduChanged.lookup p = some key → ∀ p', q.keyedEduChanged.lookup p' = some key → p' ≤ p

variable {q} {p now positionToDelete : ℤ}

/-- Exactly what is below the position goes. -/
theorem queued_clearQueueBeforePos :
    (q.clearQueueBeforePos positionToDelete).Queued p ↔ q.Queued p ∧ positionToDelete ≤ p := by
  have hlookup : ∀ {ν : Type} (d : Dict ℤ ν) (v : ν),
      (d.filterItems fun p _ => positionToDelete ≤ p).lookup p = some v ↔
        d.lookup p = some v ∧ positionToDelete ≤ p := by
    intro ν d v
    rw [Dict.lookup_filterItems, Option.filter_eq_some_iff, decide_eq_true_iff]
  unfold Queued
  rw [or_and_right, or_and_right]
  refine or_congr ?_ (or_congr ?_ ?_)
  · rw [← exists_and_right]
    exact exists_congr fun edu => hlookup q.edus edu
  · rw [← exists_and_right]
    refine exists_congr fun key => ?_
    rw [and_right_comm, ← hlookup q.keyedEduChanged key]
    exact and_congr_right fun hkey => Dict.mem_filterItems fun _ =>
      decide_eq_true (mem_map.mpr ⟨(p, key), Dict.mem_items.mpr hkey, rfl⟩)
  · rw [← exists_and_right]
    refine exists_congr fun entry => ?_
    rw [and_right_comm, ← hlookup q.presenceDestinations entry]
    exact and_congr_right fun hentry => Dict.mem_filterItems fun _ =>
      decide_eq_true (mem_map.mpr ⟨(p, entry), Dict.mem_items.mpr hentry, rfl⟩)

/-- Something is queued: nothing is removed, the new positions have the time, and the senders stay. -/
structure Extends (now : ℤ) (q q' : FederationRemoteSendQueue κ γ σ) : Prop where
  queued : ∀ p, q.Queued p → q'.Queued p
  pos : q.pos ≤ q'.pos
  posTime : ∀ time, time ∈ q'.posTime ↔ time ∈ q.posTime ∨ q.pos < q'.pos ∧ time = now
  senderInstances : q'.senderInstances = q.senderInstances
  senderPositions : q'.senderPositions = q.senderPositions

variable (q : FederationRemoteSendQueue κ γ σ)

omit [DecidableEq κ] in
theorem Extends.refl (now : ℤ) : q.Extends now q := ⟨fun _ => id, le_rfl, fun _ => by simp, rfl, rfl⟩

omit [DecidableEq κ] in
/-- One more position. -/
theorem Extends.nextPos {now : ℤ} {q q' q'' : FederationRemoteSendQueue κ γ σ} (h : Extends now q q')
    (hqueued : ∀ p, q'.Queued p → q''.Queued p) (hpos : q''.pos = q'.pos + 1)
    (hposTime : q''.posTime = q'.posTime.insert now q'.pos)
    (hsenders : q''.senderInstances = q'.senderInstances ∧ q''.senderPositions = q'.senderPositions) :
    Extends now q q'' := by
  have hle := h.pos
  refine ⟨fun p hp => hqueued p (h.queued p hp), by omega, fun time => ?_,
    hsenders.1.trans h.senderInstances, hsenders.2.trans h.senderPositions⟩
  rw [hposTime, mem_insert, h.posTime, hpos, and_iff_right (show q.pos < q'.pos + 1 by omega)]
  tauto

theorem extends_buildAndSendEdu (now : ℤ) (destination eduType : String) (content : γ) (key : Option κ) :
    q.Extends now (q.buildAndSendEdu now destination eduType content key) := by
  unfold buildAndSendEdu
  split
  · exact .refl q now
  · cases key with
    | none =>
      refine (Extends.refl q now).nextPos (fun p h => h.imp_left fun ⟨edu, hedu⟩ => ?_) rfl rfl ⟨rfl, rfl⟩
      exact Dict.exists_lookup ((mem_insert _).mpr (.inr (Dict.mem_of_lookup hedu)))
    | some key =>
      refine (Extends.refl q now).nextPos
        (fun p h => h.imp_right (.imp_left fun ⟨key', hkey', hmem⟩ => ?_)) rfl rfl ⟨rfl, rfl⟩
      by_cases hp : p = q.pos
      · exact ⟨_, by rw [hp, lookup_insert], (mem_insert _).mpr (.inl rfl)⟩
      · exact ⟨key', by rw [lookup_insert_ne hp, hkey'], (mem_insert _).mpr (.inr hmem)⟩

omit [DecidableEq κ]

theorem extends_sendPresenceToDestinations (now : ℤ)
    (states : List (String × σ)) (destinations : List String) :
    q.Extends now (q.sendPresenceToDestinations now states destinations) := by
  refine foldlRecOn states (sendPresence now states destinations) (.refl q now) fun q' h state hstate => ?_
  refine h.nextPos (fun p hp => hp.imp_right (.imp_right fun ⟨entry, hentry, hmem⟩ => ?_)) rfl rfl ⟨rfl, rfl⟩
  by_cases hp : p = q'.pos
  · exact ⟨(state.1, destinations), by rw [hp]; exact lookup_insert _,
      Dict.mem_update.mpr (.inl (mem_map_of_mem hstate))⟩
  · exact ⟨entry, (lookup_insert_ne hp).trans hentry, Dict.mem_update.mpr (.inr hmem)⟩

/-- A position is below the token if it is below what every sender that was heard of acknowledged last. -/
theorem lt_ackedToken_iff (hne : q.senderInstances ≠ []) {instanceName : String} {token : ℤ} :
    p < q.ackedToken instanceName token ↔
      ∀ i t, (q.senderPositions.insert instanceName token).lookup i = some t → p < t := by
  have hmem : ∀ t, t ∈ (Dict.items (q.senderPositions.insert instanceName token)).map Prod.snd ↔
      ∃ i, (q.senderPositions.insert instanceName token).lookup i = some t := by
    intro t
    rw [mem_map]
    exact ⟨fun ⟨item, hitem, heq⟩ => ⟨item.1, heq ▸ Dict.mem_items.mp hitem⟩,
      fun ⟨i, hi⟩ => ⟨(i, t), Dict.mem_items.mpr hi, rfl⟩⟩
  obtain ⟨m, hm, hmin, hle⟩ := exists_min? (ne_nil_of_mem ((hmem token).mpr ⟨instanceName, lookup_insert _⟩))
  unfold ackedToken
  rw [if_neg hne, hmin]
  constructor
  · intro hlt i t ht
    exact hlt.trans_le (hle t ((hmem t).mpr ⟨i, ht⟩))
  · intro hall
    obtain ⟨i, hi⟩ := (hmem m).mp hm
    exact hall i m hi

/-- `_clear_queue` clears before a position that is the time of an entry. -/
theorem lt_lastTimeBefore_iff {time : ℤ} :
    (∃ position, q.lastTimeBefore time = some position ∧ p < position) ↔
      ∃ t ∈ q.posTime, t < time ∧ p < t := by
  have hmem : ∀ t, t ∈ q.posTime.keys.filter (· < time) ↔ t ∈ q.posTime ∧ t < time := by
    intro t
    rw [mem_filter, decide_eq_true_iff, AList.mem_keys]
  constructor
  · rintro ⟨position, hposition, hlt⟩
    obtain ⟨ht, hlt'⟩ := (hmem position).mp (max?_mem hposition)
    exact ⟨position, ht, hlt', hlt⟩
  · rintro ⟨t, ht, hlt, hpt⟩
    have hin := (hmem t).mpr ⟨ht, hlt⟩
    obtain ⟨m, _, hmax, hle⟩ := exists_max? (ne_nil_of_mem hin)
    exact ⟨m, hmax, hpt.trans_le (hle t hin)⟩

end FederationRemoteSendQueue

/-- The queue in time: when each entry was queued, what was acknowledged, the last first, and when
`_clear_queue` ran last. -/
structure SendQueueRun (κ γ σ : Type) where
  queue : FederationRemoteSendQueue κ γ σ
  clock : ℤ
  createdTs : ℤ → ℤ
  acks : List (String × ℤ)
  clearedTs : Option ℤ

inductive SendQueueAction (κ γ σ : Type) where
  | tick (ms : ℕ)
  | buildAndSendEdu (destination eduType : String) (content : γ) (key : Option κ)
  | sendPresenceToDestinations (states : List (String × σ)) (destinations : List String)
  | federationAck (instanceName : String) (token : ℤ)
  | clearQueue

namespace SendQueueRun

open FederationRemoteSendQueue

variable {κ γ σ : Type} [DecidableEq κ]

def init (serverName : String) (senderInstances : List String) : SendQueueRun κ γ σ :=
  ⟨.init serverName senderInstances, 0, fun _ => 0, [], none⟩

variable (s : SendQueueRun κ γ σ)

/-- The entries that are new have the time of the clock. -/
def enqueued (q : FederationRemoteSendQueue κ γ σ) : SendQueueRun κ γ σ :=
  { s with
    queue := q
    createdTs := fun p => if s.queue.pos ≤ p ∧ p < q.pos then s.clock else s.createdTs p }

def step : SendQueueAction κ γ σ → SendQueueRun κ γ σ
  | .tick ms => { s with clock := s.clock + ms }
  | .buildAndSendEdu destination eduType content key =>
    s.enqueued (s.queue.buildAndSendEdu s.clock destination eduType content key)
  | .sendPresenceToDestinations states destinations =>
    s.enqueued (s.queue.sendPresenceToDestinations s.clock states destinations)
  | .federationAck instanceName token =>
    { s with
      queue := s.queue.federationAck instanceName token
      acks := (instanceName, token) :: s.acks }
  | .clearQueue => { s with queue := s.queue.clearQueue s.clock, clearedTs := some s.clock }

/-- The entry is older than five minutes. -/
def Old (p : ℤ) : Prop := s.createdTs p < s.clock - fiveMinutesAgo

/-- Every configured sender has acknowledged the entry, or a later one. -/
def Acked (p : ℤ) : Prop :=
  ∀ instanceName ∈ s.queue.senderInstances, ∃ token, (instanceName, token) ∈ s.acks ∧ p ≤ token

/-- What the step removes may be removed. -/
def OnlyAllowed (action : SendQueueAction κ γ σ) : Prop :=
  ∀ p, s.queue.Queued p → s.queue.Latest p → ¬(s.step action).queue.Queued p →
    (s.step action).Old p ∨ (s.step action).Acked p

/-- What has to hold of an entry of the last five minutes.  If the last acknowledgement of each sender that
was heard of is beyond it, all configured senders were heard of.  And if not all of them have acknowledged
it, no position that has become older than five minutes since the last clean-up was given at a time that is,
as a number, beyond the position of the entry. -/
def Safe : SendQueueAction κ γ σ → Prop
  | .federationAck instanceName token => ∀ p, s.queue.Queued p → s.queue.Latest p → ¬s.Old p →
      (∀ i t, ((instanceName, token) :: s.acks).lookup i = some t → p < t) →
        ∀ i ∈ s.queue.senderInstances, ∃ t, ((instanceName, token) :: s.acks).lookup i = some t
  | .clearQueue => ∀ p, s.queue.Queued p → s.queue.Latest p → ¬s.Old p → ¬s.Acked p →
      ∀ p', 1 ≤ p' → p' < s.queue.pos → s.Old p' →
        (∀ ts ∈ s.clearedTs, ts - fiveMinutesAgo ≤ s.createdTs p') → s.createdTs p' ≤ p
  | _ => True

/-- What holds between two steps: `_sender_positions` has what was acknowledged last, and `pos_time` the
times of the positions that were not older than five minutes at the last clean-up. -/
structure Inv (s : SendQueueRun κ γ σ) : Prop where
  acked : s.queue.senderInstances ≠ [] → ∀ i, s.queue.senderPositions.lookup i = s.acks.lookup i
  times : ∀ time, time ∈ s.queue.posTime ↔ ∃ p, 1 ≤ p ∧ p < s.queue.pos ∧ s.createdTs p = time ∧
    ∀ ts ∈ s.clearedTs, ts - fiveMinutesAgo ≤ time
  cleared : ∀ ts ∈ s.clearedTs, ts ≤ s.clock
  pos : 1 ≤ s.queue.pos

variable {s}

omit [DecidableEq κ] in
theorem Inv.enqueued (h : s.Inv) {q : FederationRemoteSendQueue κ γ σ} (hext : s.queue.Extends s.clock q) :
    (s.enqueued q).Inv := by
  refine ⟨fun hne i => ?_, fun time => ?_, h.cleared, h.pos.trans hext.pos⟩
  · show q.senderPositions.lookup i = s.acks.lookup i
    rw [hext.senderPositions]
    exact h.acked (hext.senderInstances ▸ hne) i
  · refine (hext.posTime time).trans ?_
    rw [h.times]
    constructor
    · rintro (⟨p, hone, hlt, hcreated, hts⟩ | ⟨hlt, rfl⟩)
      · exact ⟨p, hone, hlt.trans_le hext.pos, (if_neg (by omega)).trans hcreated, hts⟩
      · refine ⟨s.queue.pos, h.pos, hlt, if_pos ⟨le_rfl, hlt⟩, fun ts hts => ?_⟩
        have hle := h.cleared ts hts
        unfold fiveMinutesAgo
        omega
    · rintro ⟨p, hone, hlt, hcreated, hts⟩
      replace hcreated : (if _ then _ else _) = time := hcreated
      replace hlt : p < q.pos := hlt
      split at hcreated
      next hnew => exact .inr ⟨hnew.1.trans_lt hnew.2, hcreated.symm⟩
      next hold => exact .inl ⟨p, hone, by omega, hcreated, hts⟩

omit [DecidableEq κ] in
/-- The acknowledgements in the order in which `_sender_positions` has them. -/
theorem Inv.lookup_acks (h : s.Inv) (hne : s.queue.senderInstances ≠ []) (instanceName : String) (token : ℤ)
    (i : String) : (s.queue.senderPositions.insert instanceName token).lookup i =
      ((instanceName, token) :: s.acks).lookup i := by
  rw [Dict.lookup_insert_ite, h.acked hne, lookup_cons]
  by_cases hi : i = instanceName
  · simp [hi]
  · simp [hi, beq_eq_false_iff_ne.mpr hi]

theorem posTime_clearQueue (q : FederationRemoteSendQueue κ γ σ) (now time : ℤ) :
    time ∈ (q.clearQueue now).posTime ↔ time ∈ q.posTime ∧ now - fiveMinutesAgo ≤ time := by
  unfold clearQueue
  split
  next hnone =>
    refine (and_iff_left_of_imp fun htime => not_lt.mp fun hlt => ?_).symm
    obtain ⟨position, hposition, _⟩ := (q.lt_lastTimeBefore_iff (p := time - 1)).mpr
      ⟨time, htime, hlt, by omega⟩
    exact nomatch hnone.symm.trans hposition
  · show time ∈ q.posTime.filterItems _ ↔ _
    rw [← lookup_isSome, Dict.lookup_filterItems, ← lookup_isSome]
    cases q.posTime.lookup time with
    | none => simp
    | some p => simp [Option.filter]

/-- `_clear_queue` leaves the senders and the next position. -/
theorem clearQueue_senders (q : FederationRemoteSendQueue κ γ σ) (now : ℤ) :
    (q.clearQueue now).senderInstances = q.senderInstances ∧
      (q.clearQueue now).senderPositions = q.senderPositions ∧ (q.clearQueue now).pos = q.pos := by
  unfold clearQueue
  split <;> exact ⟨rfl, rfl, rfl⟩

theorem Inv.step (h : s.Inv) (action : SendQueueAction κ γ σ) : (s.step action).Inv := by
  cases action with
  | tick ms =>
    refine ⟨h.acked, h.times, fun ts hts => (h.cleared ts hts).trans ?_, h.pos⟩
    show s.clock ≤ s.clock + ms
    omega
  | buildAndSendEdu destination eduType content key =>
    exact h.enqueued (s.queue.extends_buildAndSendEdu s.clock destination eduType content key)
  | sendPresenceToDestinations states destinations =>
    exact h.enqueued (s.queue.extends_sendPresenceToDestinations s.clock states destinations)
  | federationAck instanceName token =>
    refine ⟨fun hne i => ?_, h.times, h.cleared, h.pos⟩
    replace hne : s.queue.senderInstances ≠ [] := hne
    refine Eq.trans ?_ (h.lookup_acks hne instanceName token i)
    exact congrArg (AList.lookup i) (if_neg hne)
  | clearQueue =>
    -- the clean-up leaves the acknowledgements as they are
    obtain ⟨hinstances, hpositions, hpos⟩ := clearQueue_senders s.queue s.clock
    refine ⟨fun hne i => ?_, fun time => (posTime_clearQueue s.queue s.clock time).trans ?_,
      fun ts hts => ?_, h.pos.trans hpos.ge⟩
    · show (s.queue.clearQueue s.clock).senderPositions.lookup i = _
      rw [hpositions]
      exact h.acked (hinstances ▸ hne) i
    · rw [h.times]
      constructor
      · rintro ⟨⟨p, hone, hlt, hcreated, _⟩, hle⟩
        refine ⟨p, hone, hlt.trans_le hpos.ge, hcreated, fun ts hts => ?_⟩
        rwa [← Option.some.inj hts]
      · rintro ⟨p, hone, hlt, hcreated, hle⟩
        have hnow := hle s.clock rfl
        refine ⟨⟨p, hone, hlt.trans_le hpos.le, hcreated, fun ts hts => ?_⟩, hnow⟩
        have := h.cleared ts hts
        omega
    · rw [← Option.some.inj hts]
      exact le_rfl

/-- `federation_ack` removes an entry if the senders that were heard of are all beyond it, and then all
have acknowledged it if all were heard of. -/
theorem Inv.onlyAllowed_federationAck (h : s.Inv) (instanceName : String) (token : ℤ) :
    s.OnlyAllowed (.federationAck instanceName token) ↔ s.Safe (.federationAck instanceName token) := by
  refine forall₃_congr fun p hp _ => ?_
  by_cases hnil : s.queue.senderInstances = []
  · exact iff_of_true (fun _ => .inr fun i hi => absurd hi (hnil ▸ not_mem_nil))
      fun _ _ i hi => absurd hi (hnil ▸ not_mem_nil)
  · have hremoved : ¬(s.step (.federationAck instanceName token)).queue.Queued p ↔
        ∀ i t, ((instanceName, token) :: s.acks).lookup i = some t → p < t := by
      refine (not_congr (queued_clearQueueBeforePos.trans (and_iff_right hp))).trans ?_
      rw [not_le, s.queue.lt_ackedToken_iff hnil]
      exact forall₂_congr fun i t => by rw [h.lookup_acks hnil]
    have hheard : (∀ i t, ((instanceName, token) :: s.acks).lookup i = some t → p < t) →
        ((s.step (.federationAck instanceName token)).Acked p ↔
          ∀ i ∈ s.queue.senderInstances, ∃ t, ((instanceName, token) :: s.acks).lookup i = some t) := by
      intro hbelow
      refine forall₂_congr fun i _ => ⟨fun ⟨t, ht, _⟩ => ?_, fun ⟨t, ht⟩ => ⟨t, ?_, (hbelow i t ht).le⟩⟩
      · refine Option.ne_none_iff_exists'.mp fun hnone => ?_
        exact absurd (lookup_eq_none_iff.mp hnone (i, t) ht) (by simp)
      · obtain ⟨before, after, heq, _⟩ := lookup_eq_some_iff.mp ht
        show (i, t) ∈ (instanceName, token) :: s.acks
        rw [heq]
        exact mem_append_right _ mem_cons_self
    rw [hremoved]
    constructor
    · intro hallowed hold hbelow
      exact (hheard hbelow).mp ((hallowed hbelow).resolve_left hold)
    · intro hsafe hbelow
      exact or_iff_not_imp_left.mpr fun hold => (hheard hbelow).mpr (hsafe hold hbelow)

/-- `_clear_queue` removes an entry if its position is below an old time in `pos_time`. -/
theorem Inv.onlyAllowed_clearQueue (h : s.Inv) : s.OnlyAllowed .clearQueue ↔ s.Safe .clearQueue := by
  refine forall₃_congr fun p hp _ => ?_
  have hremoved : ¬(s.step .clearQueue).queue.Queued p ↔
      ∃ t ∈ s.queue.posTime, t < s.clock - fiveMinutesAgo ∧ p < t := by
    rw [← s.queue.lt_lastTimeBefore_iff]
    simp only [SendQueueRun.step, clearQueue]
    split
    next hnone => simp [hp, hnone]
    next position hsome =>
      refine (not_congr (queued_clearQueueBeforePos.trans (and_iff_right hp))).trans ?_
      simp [hsome]
  have hacked : (s.step .clearQueue).Acked p ↔ s.Acked p := by
    show (∀ i ∈ (s.queue.clearQueue s.clock).senderInstances, _) ↔ _
    rw [(clearQueue_senders s.queue s.clock).1]
    exact Iff.rfl
  rw [hremoved, hacked]
  constructor
  · intro hallowed hold hnot p' hone hlt hold' hcleared
    by_contra hle
    refine (hallowed ⟨s.createdTs p', (h.times _).mpr ⟨p', hone, hlt, rfl, hcleared⟩, hold',
      not_le.mp hle⟩).elim hold hnot
  · rintro hsafe ⟨t, ht, hold', hlt⟩
    obtain ⟨p', hone, hlt', rfl, hcleared⟩ := (h.times t).mp ht
    by_contra hcon
    obtain ⟨hold, hnot⟩ := not_or.mp hcon
    exact absurd (hsafe hold hnot p' hone hlt' hold' hcleared) (not_le.mpr hlt)

theorem Inv.onlyAllowed_iff_safe (h : s.Inv) (action : SendQueueAction κ γ σ) :
    s.OnlyAllowed action ↔ s.Safe action := by
  cases action with
  | tick ms => exact iff_of_true (fun p hp _ hnot => absurd hp hnot) trivial
  | buildAndSendEdu destination eduType content key =>
    have hext := s.queue.extends_buildAndSendEdu s.clock destination eduType content key
    exact iff_of_true (fun p hp _ hnot => absurd (hext.queued p hp) hnot) trivial
  | sendPresenceToDestinations states destinations =>
    have hext := s.queue.extends_sendPresenceToDestinations s.clock states destinations
    exact iff_of_true (fun p hp _ hnot => absurd (hext.queued p hp) hnot) trivial
  | federationAck instanceName token => exact h.onlyAllowed_federationAck instanceName token
  | clearQueue => exact h.onlyAllowed_clearQueue

/-- **Queued EDUs are discarded only when allowed** exactly if at every step no entry that has to stay is
below the tokens of the senders heard of, or below an old time that is taken for a position. -/
theorem onlyAllowed_iff (serverName : String) (senderInstances : List String)
    (actions : List (SendQueueAction κ γ σ)) :
    AllSteps step OnlyAllowed (init serverName senderInstances) actions ↔
      AllSteps step Safe (init serverName senderInstances) actions := by
  refine allSteps_congr (I := Inv) (fun _ action h => h.onlyAllowed_iff_safe action)
    (fun _ action h _ => h.step action) actions ⟨fun _ _ => rfl, fun time => ?_, nofun, le_rfl⟩
  refine iff_of_false (notMem_empty _) ?_
  rintro ⟨p, hone, hlt, _⟩
  exact absurd hone (not_le.mpr hlt)

/-- Two EDUs, more than five minutes apart, and the clean-up of the next second. -/
def lateClear : List (SendQueueAction Unit Unit Unit) :=
  [.tick 1000, .buildAndSendEdu "remote" "m.typing" () none, .tick 300001,
    .buildAndSendEdu "remote" "m.typing" () none, .tick 999, .clearQueue]

/-- The first EDU's time is 1000, so `_clear_queue` drops what is before position 1000: the second EDU
goes, 999 ms old, and nobody has acknowledged anything. -/
theorem not_onlyAllowed_lateClear : ¬AllSteps step OnlyAllowed (init "here" ["sender"]) lateClear := by
  rintro ⟨_, _, _, _, _, h, _⟩
  rcases h 2 (.inl ⟨_, rfl⟩) nofun (by rintro (⟨_, ⟨⟩⟩ | ⟨_, ⟨⟩, _⟩ | ⟨_, ⟨⟩, _⟩)) with hold | hacked
  · exact absurd (show (301001 : ℤ) < 302000 - 300000 from hold) (by decide)
  · obtain ⟨token, htoken, _⟩ := hacked "sender" mem_cons_self
    exact nomatch htoken

/-- The first of two senders acknowledges the second EDU before the other was heard of. -/
example :
    let s : SendQueueRun Unit Unit Unit :=
      [.buildAndSendEdu "remote" "m.typing" () none, .buildAndSendEdu "remote" "m.typing" () none].foldl
        step (init "here" ["first", "second"])
    s.queue.edus.keys = [2, 1] ∧ (s.step (.federationAck "first" 2)).queue.edus.keys = [2] := by
  decide

end SendQueueRun
end Synapse.Federation
