import Synapse.Push.HttpPusher

/-!
# What the HTTP pusher leaves out

Where the gateway takes everything, what a pusher has sent since it stood at a stream ordering are the
unread notifications from there to where it stands now, each one once and in order (`HttpPusher.Caught`).
A round keeps this, whatever the rows are that it gets: it advances to the last unread one of them.

But a round gets 20 rows, read ones among them, and `_process` ends after a round during which
`max_stream_ordering` has not changed, even if the rows were not all.  So a notification is left out if 20
others stand between it and the pusher; and if these 20 have all been read, the pusher does not advance
and gets the same 20 rows again (`HttpPusher.runRound_stuck`).
-/

namespace Synapse.Push

open Synapse.Util List

/-! ## The rows of a round -/

section
variable {order : RowOrder PushAction} {t : PushTables} {userId : String} {lo mid hi : ℤ}

/-- No two notifications of the user have the same stream ordering: it is the one of their event. -/
def PushTables.DistinctNotifs (t : PushTables) (userId : String) : Prop :=
  ((t.eventPushActions.filter fun a => a.userId = userId && a.notif).map PushAction.streamOrdering).Nodup

variable {a : PushAction}

theorem mem_notifsBetween : a ∈ t.notifsBetween order userId lo hi ↔
    a ∈ t.eventPushActions ∧ a.userId = userId ∧ a.notif = true ∧ lo < a.streamOrdering ∧
      a.streamOrdering ≤ hi := by
  unfold PushTables.notifsBetween
  rw [mem_orderBy, (order.perm _).mem_iff, mem_filter]
  simp only [Bool.and_eq_true, decide_eq_true_eq]
  tauto

theorem notifsBetween_perm : (t.notifsBetween order userId lo hi).Perm
    ((t.eventPushActions.filter fun a => a.userId = userId && a.notif).filter fun a =>
      lo < a.streamOrdering && a.streamOrdering ≤ hi) := by
  refine (orderBy_perm _).trans ((order.perm _).trans (Perm.of_eq ?_))
  rw [filter_filter]
  refine filter_congr fun a _ => ?_
  rw [Bool.eq_iff_iff]
  simp only [Bool.and_eq_true]
  tauto

section
variable (hdistinct : t.DistinctNotifs userId)
include hdistinct

theorem pairwise_notifsBetween :
    Increasing PushAction.streamOrdering (t.notifsBetween order userId lo hi) := by
  refine pairwise_lt_orderBy (((order.perm _).map _).nodup_iff.mpr ?_)
  refine hdistinct.sublist (List.Sublist.map _ ?_)
  refine monotone_filter_right _ fun a h => ?_
  simp only [Bool.and_eq_true] at h ⊢
  exact ⟨h.1.1.1, h.2⟩

theorem notifsBetween_append (hlo : lo ≤ mid) (hhi : mid ≤ hi) :
    t.notifsBetween order userId lo mid ++ t.notifsBetween order userId mid hi =
      t.notifsBetween order userId lo hi := by
  refine eq_of_perm_of_pairwise_lt ?_ (pairwise_append.mpr ⟨pairwise_notifsBetween hdistinct,
    pairwise_notifsBetween hdistinct, fun a ha b hb => ?_⟩) (pairwise_notifsBetween hdistinct)
  · refine (notifsBetween_perm.append notifsBetween_perm).trans (List.Perm.trans ?_
      notifsBetween_perm.symm)
    refine List.Perm.trans (Perm.of_eq ?_) (filter_append_perm
      (fun a => decide (a.streamOrdering ≤ mid)) _)
    rw [filter_filter (l := List.filter _ _), filter_filter (l := List.filter _ _)]
    congr 1
    · refine filter_congr fun a _ => ?_
      rw [Bool.eq_iff_iff]
      simp only [Bool.and_eq_true, decide_eq_true_eq]
      omega
    · refine filter_congr fun a _ => ?_
      rw [Bool.eq_iff_iff]
      simp only [Bool.and_eq_true, decide_eq_true_eq, Bool.not_eq_true', decide_eq_false_iff_not]
      omega
  · exact lt_of_le_of_lt (mem_notifsBetween.mp ha).2.2.2.2 (mem_notifsBetween.mp hb).2.2.2.1

theorem filter_le_notifsBetween (hhi : mid ≤ hi) :
    ((t.notifsBetween order userId lo hi).filter fun a => a.streamOrdering ≤ mid) =
      t.notifsBetween order userId lo mid := by
  refine eq_of_perm_of_pairwise_lt ?_ ((pairwise_notifsBetween hdistinct).sublist filter_sublist)
    (pairwise_notifsBetween hdistinct)
  refine (notifsBetween_perm.filter _).trans (List.Perm.trans (Perm.of_eq ?_) notifsBetween_perm.symm)
  rw [filter_filter]
  refine filter_congr fun a _ => ?_
  rw [Bool.eq_iff_iff]
  simp only [Bool.and_eq_true, decide_eq_true_eq]
  omega

end

/-- The notifications between the pusher and another one. -/
theorem countP_notifsBetween (hhi : a.streamOrdering ≤ hi) :
    ((t.notifsBetween order userId lo hi).countP fun b => b.streamOrdering < a.streamOrdering) =
      t.eventPushActions.countP fun b => b.userId = userId && b.notif && lo < b.streamOrdering &&
        b.streamOrdering < a.streamOrdering := by
  rw [notifsBetween_perm.countP_eq, filter_filter, countP_filter]
  refine countP_congr fun b _ => ?_
  have hle : b.streamOrdering < a.streamOrdering → b.streamOrdering ≤ hi := fun h => h.le.trans hhi
  simp only [Bool.and_eq_true, decide_eq_true_eq]
  tauto

end

/-! ## A round in which the gateway takes everything -/

/-- The tables are these whenever they are read, all events are there, the gateway takes every
notification and does not reject the pusher, which nobody else deletes. -/
structure Round.Succeeds (config : PusherConfig) (t : PushTables) (round : Round) : Prop where
  receipts : round.receipts = t
  tables : round.tables = t
  event : ∀ a, (round.calls a).event.isSome = true
  hasContext : ∀ a, (round.calls a).hasContext = true
  answer : ∀ a, ∃ pushkeys, (round.calls a).answer = .rejected pushkeys ∧ config.pushkey ∉ pushkeys
  kept : ∀ a, (round.calls a).deleted = false

variable (config : PusherConfig) (t : PushTables)

/-- The user's notifications have actions, and `notify` is one of them. -/
def PushTables.Dispatchable : Prop :=
  ∀ a ∈ t.eventPushActions, a.userId = config.userId → a.notif = true →
    ∃ actions, deserializeAction config.dbToJson a.actions a.highlight = some actions ∧
      actions.any (Json.isString "notify") = true

/-- The push action as the pusher gets it. -/
def PushAction.toHttp (config : PusherConfig) (a : PushAction) : HttpPushAction :=
  ⟨a.eventId, a.roomId, a.streamOrdering,
    (deserializeAction config.dbToJson a.actions a.highlight).getD []⟩

/-- The user's unread notifications between two stream orderings, the oldest first. -/
def PushTables.unreadBetween (lo hi : ℤ) : List PushAction :=
  (t.notifsBetween config.order config.userId lo hi).filter
    (PushAction.isUnreadBy (getReceiptsByRoomTxn t config.userId))

/-- The unread notifications that a round gets. -/
def PushTables.unreadPage (lo hi : ℤ) : List PushAction :=
  ((t.notifsBetween config.order config.userId lo hi).take httpLimit).filter
    (PushAction.isUnreadBy (getReceiptsByRoomTxn t config.userId))

namespace HttpPusher

open PushTables (unreadBetween unreadPage)

open PushAction (isUnreadBy streamOrdering toHttp)

variable {config : PusherConfig} {t : PushTables} {round : Round} {s : HttpPusher}

theorem processOne_succeeds (hround : round.Succeeds config t) {a : HttpPushAction}
    (hnotify : a.actions.any (Json.isString "notify") = true) (s : HttpPusher) :
    ∃ s', processOne config (round.calls a) a s = some (true, s') ∧
      (∃ notification, s'.sent = s.sent ++ [(a, notification)]) ∧ s'.row = s.row ∧
      s'.maxStreamOrdering = s.maxStreamOrdering := by
  obtain ⟨event, hevent⟩ := Option.isSome_iff_exists.mp (hround.event a)
  obtain ⟨pushkeys, hanswer, hpushkey⟩ := hround.answer a
  unfold processOne dispatchPushEvent
  rw [hnotify, hevent, hround.hasContext a, hanswer]
  simp only [Bool.not_true, Bool.false_eq_true, if_false, Bool.and_false, if_neg hpushkey]
  refine ⟨_, rfl, ?_⟩
  split
  · exact ⟨⟨_, rfl⟩, rfl, rfl⟩
  · exact ⟨⟨_, rfl⟩, rfl, rfl⟩

theorem storeSuccess_spec (s : HttpPusher) (row : PusherRow) (a : HttpPushAction) (timeMsec : ℕ) :
    (s.storeSuccess row a timeMsec).sent = s.sent ∧
      (s.storeSuccess row a timeMsec).lastStreamOrdering = s.lastStreamOrdering ∧
      (s.storeSuccess row a timeMsec).maxStreamOrdering = s.maxStreamOrdering ∧
      (s.storeSuccess row a timeMsec).row.isSome = true := by
  unfold storeSuccess
  dsimp only
  split
  · exact ⟨rfl, rfl, rfl, rfl⟩
  · exact ⟨rfl, rfl, rfl, rfl⟩

/-- All the push actions are sent, and the pusher stands at the last one. -/
theorem processActions_succeeds (hround : round.Succeeds config t) :
    ∀ {unprocessed : List HttpPushAction} {s : HttpPusher}, s.row.isSome = true →
      (∀ a ∈ unprocessed, a.actions.any (Json.isString "notify") = true) →
      ∃ sent, (processActions config round.calls unprocessed s).sent = s.sent ++ sent ∧
        sent.map Prod.fst = unprocessed ∧
        (processActions config round.calls unprocessed s).lastStreamOrdering =
          (unprocessed.getLast?.map HttpPushAction.streamOrdering).getD s.lastStreamOrdering ∧
        (processActions config round.calls unprocessed s).maxStreamOrdering = s.maxStreamOrdering ∧
        (processActions config round.calls unprocessed s).row.isSome = true
  | [], s, hrow, _ => ⟨[], (append_nil _).symm, rfl, rfl, rfl, hrow⟩
  | a :: unprocessed, s, hrow, hnotify => by
    obtain ⟨s₁, hone, ⟨notification, hsent⟩, hrow₁, hmax⟩ :=
      processOne_succeeds hround (hnotify a mem_cons_self) s
    obtain ⟨row, hrow₁'⟩ := Option.isSome_iff_exists.mp (hrow₁ ▸ hrow)
    unfold processActions
    rw [hone]
    have hadvance : (s₁.advance a).row = some row := hrow₁'
    simp only [hround.kept a, Bool.false_eq_true, if_false, hadvance]
    obtain ⟨hsent₂, hlast₂, hmax₂, hrow₂⟩ := storeSuccess_spec (s₁.advance a) row a
      (round.calls a).timeMsec
    obtain ⟨sent, hsent', hfst, hlast', hmax', hrow'⟩ := processActions_succeeds hround hrow₂
      fun b hb => hnotify b (mem_cons_of_mem _ hb)
    refine ⟨(a, notification) :: sent, ?_, by rw [map_cons, hfst], ?_, ?_, hrow'⟩
    · rw [hsent', hsent₂, show (s₁.advance a).sent = s₁.sent from rfl, hsent, append_assoc]
      rfl
    · rw [hlast', hlast₂, getLast?_cons]
      cases unprocessed.getLast? with
      | none => rfl
      | some b => rfl
    · rw [hmax', hmax₂, ← hmax]
      rfl

variable (hdistinct : t.DistinctNotifs config.userId) (hdispatch : t.Dispatchable config)

include hdistinct hdispatch in
theorem getUnreadPushActions_eq (lo hi : ℤ) :
    getUnreadPushActionsForUserInRangeForHttp config.dbToJson config.order t t config.userId lo hi
        httpLimit =
      some ((t.unreadPage config lo hi).map (toHttp config)) := by
  have hmapM : (t.unreadPage config lo hi).mapM (fun a => do
      let actions ← deserializeAction config.dbToJson a.actions a.highlight
      return ⟨a.eventId, a.roomId, a.streamOrdering, actions⟩) =
        some ((t.unreadPage config lo hi).map (toHttp config)) := by
    refine mapM_eq_some_map fun a ha => ?_
    obtain ⟨hmem, huser, hnotif, _⟩ := mem_notifsBetween.mp (mem_of_mem_take (mem_filter.mp ha).1)
    obtain ⟨actions, hactions, _⟩ := hdispatch a hmem huser hnotif
    unfold toHttp
    rw [hactions]
    rfl
  have hsorted : ((t.unreadPage config lo hi).map (toHttp config)).Pairwise
      fun a b => a.streamOrdering < b.streamOrdering :=
    pairwise_map.mpr (((pairwise_notifsBetween hdistinct).sublist (take_sublist _ _)).sublist
      filter_sublist)
  have hlength : ((t.unreadPage config lo hi).map (toHttp config)).length ≤ httpLimit := by
    rw [length_map]
    exact (length_filter_le _ _).trans (length_take_le _ _)
  unfold getUnreadPushActionsForUserInRangeForHttp
  unfold unreadPage at hmapM hsorted hlength ⊢
  dsimp only
  rw [hmapM]
  refine congrArg some ?_
  rw [orderBy_eq_self hsorted, take_of_length_le hlength]

/-- Where a round leaves the pusher. -/
def pageEnd (config : PusherConfig) (t : PushTables) (lo hi : ℤ) : ℤ :=
  ((t.unreadPage config lo hi).getLast?.map streamOrdering).getD lo

theorem unreadBetween_self {lo : ℤ} : t.unreadBetween config lo lo = [] := by
  refine filter_eq_nil_iff.mpr fun a ha => ?_
  have hbounds := (mem_notifsBetween.mp ha).2.2.2
  exact absurd (lt_of_lt_of_le hbounds.1 hbounds.2) (lt_irrefl _)

include hdistinct in
theorem unreadPage_spec (lo hi : ℤ) :
    t.unreadPage config lo hi = t.unreadBetween config lo (pageEnd config t lo hi) ∧
      lo ≤ pageEnd config t lo hi ∧ (pageEnd config t lo hi = lo ∨ pageEnd config t lo hi ≤ hi) := by
  unfold pageEnd
  cases hlast : (t.unreadPage config lo hi).getLast? with
  | none =>
    refine ⟨?_, le_rfl, .inl rfl⟩
    rw [getLast?_eq_none_iff.mp hlast]
    exact unreadBetween_self.symm
  | some last =>
    have hmem := mem_of_mem_take (mem_filter.mp (mem_of_mem_getLast? hlast)).1
    obtain ⟨_, _, _, hlo, hhi⟩ := mem_notifsBetween.mp hmem
    refine ⟨?_, hlo.le, .inr hhi⟩
    unfold unreadPage at hlast ⊢
    rw [filter_take_eq (pairwise_notifsBetween hdistinct) hlast, filter_le_notifsBetween hdistinct hhi]
    rfl

include hdistinct hdispatch in
theorem unsafeProcess_succeeds (hround : round.Succeeds config t) (hrow : s.row.isSome = true) :
    ∃ sent, (unsafeProcess config round s).sent = s.sent ++ sent ∧
      sent.map Prod.fst = (t.unreadPage config s.lastStreamOrdering s.maxStreamOrdering).map
        (toHttp config) ∧
      (unsafeProcess config round s).lastStreamOrdering =
        pageEnd config t s.lastStreamOrdering s.maxStreamOrdering ∧
      (unsafeProcess config round s).maxStreamOrdering = s.maxStreamOrdering ∧
      (unsafeProcess config round s).row.isSome = true := by
  unfold unsafeProcess
  rw [hround.receipts, hround.tables, getUnreadPushActions_eq hdistinct hdispatch]
  have hnotify : ∀ a ∈ (t.unreadPage config s.lastStreamOrdering s.maxStreamOrdering).map
      (toHttp config), a.actions.any (Json.isString "notify") = true := by
    intro a ha
    obtain ⟨b, hb, rfl⟩ := mem_map.mp ha
    obtain ⟨hmem, huser, hnotif, _⟩ := mem_notifsBetween.mp (mem_of_mem_take (mem_filter.mp hb).1)
    obtain ⟨actions, hactions, hnotify⟩ := hdispatch b hmem huser hnotif
    unfold toHttp
    rw [hactions]
    exact hnotify
  obtain ⟨sent, hsent, hfst, hlast, hrest⟩ := processActions_succeeds hround hrow hnotify
  refine ⟨sent, hsent, hfst, hlast.trans ?_, hrest⟩
  rw [getLast?_map, Option.map_map]
  rfl

/-! ## Runs -/

/-- The pusher has sent what was unread from where the other one stands. -/
structure Caught (config : PusherConfig) (t : PushTables) (s₀ s : HttpPusher) : Prop where
  sent : ∃ sent, s.sent = s₀.sent ++ sent ∧ sent.map Prod.fst =
    (t.unreadBetween config s₀.lastStreamOrdering s.lastStreamOrdering).map (toHttp config)
  le : s₀.lastStreamOrdering ≤ s.lastStreamOrdering
  le_max : s.lastStreamOrdering = s₀.lastStreamOrdering ∨ s.lastStreamOrdering ≤ s.maxStreamOrdering
  max : s₀.maxStreamOrdering ≤ s.maxStreamOrdering
  row : s.row.isSome = true

theorem Caught.refl (hrow : s.row.isSome = true) : Caught config t s s := by
  refine ⟨⟨[], (append_nil _).symm, ?_⟩, le_rfl, .inl rfl, le_rfl, hrow⟩
  rw [unreadBetween_self]
  rfl

/-- The maximum after some tokens have arrived. -/
def maxAfter (tokens : List ℤ) (stream : ℤ) : ℤ := tokens.foldl (fun stream token => max token stream) stream

theorem foldl_onNewNotifications : ∀ (tokens : List ℤ) (s : HttpPusher),
    s.maxStreamOrdering ≤ maxAfter tokens s.maxStreamOrdering ∧ tokens.foldl onNewNotifications s =
      { s with maxStreamOrdering := maxAfter tokens s.maxStreamOrdering }
  | [], s => ⟨le_rfl, rfl⟩
  | token :: tokens, s => by
    obtain ⟨hle, heq⟩ := foldl_onNewNotifications tokens (s.onNewNotifications token)
    exact ⟨(le_max_right _ _).trans hle, heq⟩

include hdistinct hdispatch in
theorem runRound_succeeds (hround : round.Succeeds config t) (hrow : s.row.isSome = true) :
    Caught config t s (s.runRound config round) ∧
      (s.runRound config round).lastStreamOrdering =
        pageEnd config t s.lastStreamOrdering s.maxStreamOrdering ∧
      (s.runRound config round).maxStreamOrdering = maxAfter round.newTokens s.maxStreamOrdering := by
  obtain ⟨sent, hsent, hfst, hlast, hmax, hrow'⟩ := unsafeProcess_succeeds hdistinct hdispatch hround hrow
  obtain ⟨hpage, hle, hor⟩ := unreadPage_spec hdistinct s.lastStreamOrdering s.maxStreamOrdering
  obtain ⟨hstream, hfold⟩ := foldl_onNewNotifications round.newTokens (unsafeProcess config round s)
  rw [hmax] at hstream hfold
  unfold runRound
  rw [hfold]
  refine ⟨⟨⟨sent, hsent, ?_⟩, ?_, ?_, hstream, hrow'⟩, hlast, rfl⟩
  · rw [hfst, hpage]
    rw [hlast]
  · rw [← hlast] at hle
    exact hle
  · rw [← hlast] at hor
    exact hor.imp id fun h => h.trans hstream

include hdistinct in
theorem Caught.trans {s₀ s₁ : HttpPusher}
    (h : Caught config t s₀ s) (h' : Caught config t s s₁) : Caught config t s₀ s₁ := by
  obtain ⟨sent, hsent, hfst⟩ := h.sent
  obtain ⟨sent', hsent', hfst'⟩ := h'.sent
  refine ⟨⟨sent ++ sent', by rw [hsent', hsent, append_assoc], ?_⟩, h.le.trans h'.le, ?_,
    h.max.trans h'.max, h'.row⟩
  · unfold unreadBetween at hfst hfst' ⊢
    rw [map_append, hfst, hfst', ← map_append, ← filter_append, notifsBetween_append hdistinct h.le h'.le]
  · rcases h'.le_max with heq | hle
    · rcases h.le_max with heq' | hle'
      · exact .inl (heq.trans heq')
      · exact .inr ((heq ▸ hle').trans h'.max)
    · exact .inr hle

variable {s' : HttpPusher}

/-- Where the last round of `_process` starts, if these tokens arrive in its rounds: the rounds before it
have each gone to the end of a page, and have raised the maximum. -/
def lastRoundStart (config : PusherConfig) (t : PushTables) : List (List ℤ) → ℤ → ℤ → ℤ
  | [], lo, _ => lo
  | tokens :: rest, lo, hi =>
    if maxAfter tokens hi = hi then lo
    else lastRoundStart config t rest (pageEnd config t lo hi) (maxAfter tokens hi)

include hdistinct hdispatch in
/-- When `_process` finishes, everything was caught up with before its last round, which left the maximum
as it was. -/
theorem process_spec {rounds : List Round} (hrounds : ∀ round ∈ rounds, round.Succeeds config t)
    (hrow : s.row.isSome = true) (h : process config rounds s = some s') :
    ∃ s₁, Caught config t s s₁ ∧ s₁.lastStreamOrdering = lastRoundStart config t
        (rounds.map Round.newTokens) s.lastStreamOrdering s.maxStreamOrdering ∧
      ∃ round ∈ rounds, s' = s₁.runRound config round ∧ s'.maxStreamOrdering = s₁.maxStreamOrdering := by
  induction rounds generalizing s with
  | nil => exact absurd (show none = some s' from h) (Option.some_ne_none s').symm
  | cons round rounds ih =>
    obtain ⟨hcaught, hend, hmax⟩ :=
      runRound_succeeds hdistinct hdispatch (hrounds round mem_cons_self) hrow
    unfold process at h
    rw [map_cons, lastRoundStart, ← hmax]
    split at h
    next hsame =>
      rw [if_pos hsame]
      have heq := (Option.some.inj h).symm
      exact ⟨s, .refl hrow, rfl, round, mem_cons_self, heq, heq ▸ hsame⟩
    next hchanged =>
      rw [if_neg hchanged, ← hend]
      obtain ⟨s₁, hcaught', hstart, round', hmem, hlast⟩ := ih
        (fun round' hmem => hrounds round' (mem_cons_of_mem _ hmem)) hcaught.row h
      exact ⟨s₁, hcaught.trans hdistinct hcaught', hstart, round', mem_cons_of_mem _ hmem, hlast⟩

/-- An unread notification of the pusher's user. -/
structure IsUnreadNotif (config : PusherConfig) (t : PushTables) (a : PushAction) : Prop where
  mem : a ∈ t.eventPushActions
  user : a.userId = config.userId
  notif : a.notif = true
  unread : a.isUnreadBy (getReceiptsByRoomTxn t config.userId) = true

variable {a : PushAction} {lo hi : ℤ}

theorem mem_unreadBetween : a ∈ t.unreadBetween config lo hi ↔
    IsUnreadNotif config t a ∧ lo < a.streamOrdering ∧ a.streamOrdering ≤ hi := by
  unfold unreadBetween
  rw [mem_filter, mem_notifsBetween]
  constructor
  · intro h
    exact ⟨⟨h.1.1, h.1.2.1, h.1.2.2.1, h.2⟩, h.1.2.2.2⟩
  · intro h
    exact ⟨⟨h.1.mem, h.1.user, h.1.notif, h.2⟩, h.1.unread⟩

include hdistinct in
/-- A round gets to an unread notification exactly if fewer than 20 notifications are before it. -/
theorem le_pageEnd_iff (ha : IsUnreadNotif config t a) (hlo : lo < a.streamOrdering)
    (hhi : a.streamOrdering ≤ hi) : a.streamOrdering ≤ pageEnd config t lo hi ↔
      (t.eventPushActions.countP fun b => b.userId = config.userId && b.notif &&
        lo < b.streamOrdering && b.streamOrdering < a.streamOrdering) < httpLimit := by
  obtain ⟨hpage, _, _⟩ := unreadPage_spec hdistinct lo hi
  have hmem : a ∈ t.unreadPage config lo hi ↔ a.streamOrdering ≤ pageEnd config t lo hi := by
    rw [hpage, mem_unreadBetween]
    exact ⟨fun h => h.2.2, fun h => ⟨ha, hlo, h⟩⟩
  rw [← hmem, ← countP_notifsBetween hhi]
  unfold unreadPage
  rw [mem_filter, mem_take_iff_countP_lt (pairwise_notifsBetween hdistinct), mem_notifsBetween]
  exact ⟨fun h => h.1.2, fun h => ⟨⟨⟨ha.mem, ha.user, ha.notif, hlo, hhi⟩, h⟩, ha.unread⟩⟩

/-- What `_process` sends are unread notifications, each one once and the oldest first.  None is left out
exactly if, when the last round starts, there are fewer than 20 notifications, read or unread, between
the pusher and any unread one. -/
theorem process_dispatches_iff (config : PusherConfig) (t : PushTables) (rounds : List Round)
    (s s' : HttpPusher) (hdistinct : t.DistinctNotifs config.userId) (hdispatch : t.Dispatchable config)
    (hrounds : ∀ round ∈ rounds, round.Succeeds config t) (hrow : s.row.isSome = true)
    (h : process config rounds s = some s') :
    let start := lastRoundStart config t (rounds.map Round.newTokens) s.lastStreamOrdering
      s.maxStreamOrdering
    ∃ sent, s'.sent = s.sent ++ sent ∧
      sent.Pairwise (fun d d' => d.1.streamOrdering < d'.1.streamOrdering) ∧
      (∀ d ∈ sent, ∃ a, IsUnreadNotif config t a ∧ s.lastStreamOrdering < a.streamOrdering ∧
        a.streamOrdering ≤ s'.maxStreamOrdering ∧ d.1 = a.toHttp config) ∧
      ((∀ a, IsUnreadNotif config t a → s.lastStreamOrdering < a.streamOrdering →
          a.streamOrdering ≤ s'.maxStreamOrdering → ∃ d ∈ sent, d.1 = a.toHttp config) ↔
        ∀ a, IsUnreadNotif config t a → start < a.streamOrdering → a.streamOrdering ≤ s'.maxStreamOrdering →
          (t.eventPushActions.countP fun b => b.userId = config.userId && b.notif &&
            start < b.streamOrdering && b.streamOrdering < a.streamOrdering) < httpLimit) := by
  obtain ⟨s₁, hbefore, hstart, round, hround, heq, hmax⟩ := process_spec hdistinct hdispatch hrounds hrow h
  obtain ⟨hlast, hend, _⟩ := runRound_succeeds hdistinct hdispatch (hrounds round hround) hbefore.row
  rw [← heq] at hlast hend
  rw [← hstart]
  have hcaught := hbefore.trans hdistinct hlast
  obtain ⟨sent, hsent, hfst⟩ := hcaught.sent
  -- sent is what the pusher has passed, and its last position is the end of a page
  have hmem : ∀ a, IsUnreadNotif config t a → s.lastStreamOrdering < a.streamOrdering →
      ((∃ d ∈ sent, d.1 = a.toHttp config) ↔ a.streamOrdering ≤ s'.lastStreamOrdering) := by
    intro a ha hlo
    constructor
    · intro hd
      obtain ⟨d, hd, heq'⟩ := hd
      obtain ⟨b, hb, hba⟩ := mem_map.mp (hfst ▸ mem_map_of_mem hd)
      have hso : b.streamOrdering = a.streamOrdering :=
        congrArg HttpPushAction.streamOrdering (hba.trans heq')
      exact hso ▸ (mem_unreadBetween.mp hb).2.2
    · intro hle
      exact mem_map.mp (hfst ▸ mem_map_of_mem (mem_unreadBetween.mpr ⟨ha, hlo, hle⟩))
  refine ⟨sent, hsent, ?_, ?_, ?_⟩
  · have hsorted : ((t.unreadBetween config s.lastStreamOrdering s'.lastStreamOrdering).map
        (toHttp config)).Pairwise fun a b => a.streamOrdering < b.streamOrdering :=
      pairwise_map.mpr ((pairwise_notifsBetween hdistinct).sublist filter_sublist)
    rw [← hfst] at hsorted
    exact (pairwise_map (f := Prod.fst)).mp hsorted
  · intro d hd
    obtain ⟨a, ha, had⟩ := mem_map.mp (hfst ▸ mem_map_of_mem hd)
    obtain ⟨hunread, hlo, hle⟩ := mem_unreadBetween.mp ha
    refine ⟨a, hunread, hlo, ?_, had.symm⟩
    rcases hcaught.le_max with hsame | hle'
    · omega
    · exact hle.trans hle'
  · constructor
    · intro hall a ha hlo hhi
      have hle := (hmem a ha (lt_of_le_of_lt hbefore.le hlo)).mp
        (hall a ha (lt_of_le_of_lt hbefore.le hlo) hhi)
      rw [hend] at hle
      exact (le_pageEnd_iff hdistinct ha hlo (hmax ▸ hhi)).mp hle
    · intro hall a ha hlo hhi
      refine (hmem a ha hlo).mpr ?_
      by_cases hle : a.streamOrdering ≤ s₁.lastStreamOrdering
      · exact hle.trans hlast.le
      · rw [hend]
        exact (le_pageEnd_iff hdistinct ha (not_le.mp hle) (hmax ▸ hhi)).mpr
          (hall a ha (not_le.mp hle) hhi)

/-! ## Getting stuck -/

/-- The next 20 notifications have all been read. -/
structure Stuck (config : PusherConfig) (t : PushTables) (s : HttpPusher) : Prop where
  full : httpLimit ≤ (t.notifsBetween config.order config.userId s.lastStreamOrdering
    s.maxStreamOrdering).length
  read : t.unreadPage config s.lastStreamOrdering s.maxStreamOrdering = []

include hdistinct in
/-- It gets the same rows, whatever comes after them. -/
theorem Stuck.mono (h : Stuck config t s) (hlast : s'.lastStreamOrdering = s.lastStreamOrdering)
    (hmax : s.maxStreamOrdering ≤ s'.maxStreamOrdering) : Stuck config t s' := by
  obtain ⟨a, ha⟩ := exists_mem_of_length_pos (Nat.lt_of_lt_of_le (by decide) h.full)
  obtain ⟨_, _, _, hlo, hhi⟩ := mem_notifsBetween.mp ha
  have happend : t.notifsBetween config.order config.userId s.lastStreamOrdering s.maxStreamOrdering ++
      t.notifsBetween config.order config.userId s.maxStreamOrdering s'.maxStreamOrdering = _ :=
    notifsBetween_append hdistinct (hlo.le.trans hhi) hmax
  refine ⟨?_, ?_⟩
  · rw [hlast, ← happend, length_append]
    exact h.full.trans (Nat.le_add_right _ _)
  · have hread := h.read
    unfold unreadPage at hread ⊢
    rw [hlast, ← happend, take_append_of_le_length h.full]
    exact hread

include hdistinct hdispatch in
theorem Stuck.runRound (hround : round.Succeeds config t) (hrow : s.row.isSome = true)
    (h : Stuck config t s) :
    Stuck config t (s.runRound config round) ∧ (s.runRound config round).row.isSome = true ∧
      (s.runRound config round).sent = s.sent := by
  obtain ⟨hcaught, hend, _⟩ := runRound_succeeds hdistinct hdispatch hround hrow
  have hlast : (s.runRound config round).lastStreamOrdering = s.lastStreamOrdering := by
    rw [hend]
    unfold pageEnd
    rw [h.read]
    rfl
  obtain ⟨sent, hsent, hfst⟩ := hcaught.sent
  have hnil : sent = [] := by
    rw [hend, ← (unreadPage_spec hdistinct _ _).1, h.read, map_nil] at hfst
    exact map_eq_nil_iff.mp hfst
  exact ⟨h.mono hdistinct hlast hcaught.max, hcaught.row, by rw [hsent, hnil, append_nil]⟩

include hdistinct hdispatch in
/-- A pusher that is stuck sends nothing, however often it is started and whatever arrives. -/
theorem Stuck.sent_foldl :
    ∀ {rounds : List Round} {s : HttpPusher}, (∀ round ∈ rounds, round.Succeeds config t) →
      s.row.isSome = true → Stuck config t s → (rounds.foldl (HttpPusher.runRound config) s).sent = s.sent
  | [], _, _, _, _ => rfl
  | round :: rounds, s, hrounds, hrow, h => by
    obtain ⟨hstuck, hrow', hsent⟩ := h.runRound hdistinct hdispatch (hrounds round mem_cons_self) hrow
    rw [foldl_cons, Stuck.sent_foldl
      (fun round' hmem => hrounds round' (mem_cons_of_mem _ hmem)) hrow' hstuck, hsent]

/-! ## Alice's pusher -/

def aliceConfig : PusherConfig :=
  ⟨"@alice", "key", false, false, .postgres, fun _ => none, ⟨fun rows => rows, fun _ => .refl _⟩⟩

def alicePusher (maxStreamOrdering : ℤ) : HttpPusher :=
  ⟨0, maxStreamOrdering, initialBackoffSec, none, none, none, some ⟨0, none, none⟩, []⟩

/-- Alice has notifications at 1, 2 and so on, and has read the first ones. -/
def notifiedTables (read total : ℕ) : PushTables where
  events := Dict.single "$read" ⟨"!room", read⟩
  receiptsLinearized := Dict.single ⟨"!room", "m.read", "@alice", none⟩ ⟨1, "$read", some read⟩
  eventPushActions := (List.range total).map fun n : ℕ =>
    ⟨"@alice", "!room", "$" ++ toString (n + 1), mainTimeline, n + 1, "", true, true, false⟩
  eventPushSummary := ∅
  rotatedUpto := 0
  lastReceiptStreamId := 1

/-- A round in which the gateway takes everything. -/
def plainRound (t : PushTables) : Round where
  receipts := t
  tables := t
  calls a := ⟨t, [], [], some ⟨a.eventId, a.roomId, "m.room.message"⟩, true, .rejected [], false, 0⟩
  newTokens := []

theorem plainRound_succeeds (t : PushTables) (newTokens : List ℤ) :
    { plainRound t with newTokens }.Succeeds aliceConfig t :=
  ⟨rfl, rfl, fun _ => rfl, fun _ => rfl, fun _ => ⟨[], rfl, not_mem_nil⟩, fun _ => rfl⟩

theorem notifiedTables_dispatchable (read total : ℕ) :
    (notifiedTables read total).Dispatchable aliceConfig := by
  intro a ha _ _
  obtain ⟨n, _, rfl⟩ := mem_map.mp ha
  exact ⟨defaultNotifAction, rfl, rfl⟩

/-- One of three notifications has been read; the other two are sent. -/
theorem process_dispatches_two :
    ∃ s', process aliceConfig [plainRound (notifiedTables 1 3)] (alicePusher 3) = some s' ∧
      ∀ a, IsUnreadNotif aliceConfig (notifiedTables 1 3) a → a.streamOrdering ≤ 3 →
        ∃ d ∈ s'.sent, d.1.streamOrdering = a.streamOrdering := by
  refine ⟨_, rfl, fun a ha hle => ?_⟩
  have hrounds : ∀ round ∈ [plainRound (notifiedTables 1 3)],
      round.Succeeds aliceConfig (notifiedTables 1 3) := fun round hmem =>
    mem_singleton.mp hmem ▸ plainRound_succeeds _ []
  obtain ⟨sent, hsent, _, _, hiff⟩ := process_dispatches_iff aliceConfig (notifiedTables 1 3)
    [plainRound (notifiedTables 1 3)] (alicePusher 3) _ (show List.Nodup _ by decide +kernel)
    (notifiedTables_dispatchable 1 3) hrounds rfl rfl
  have hlo : 0 < a.streamOrdering := by
    obtain ⟨n, _, rfl⟩ := mem_map.mp ha.mem
    exact Int.natCast_succ_pos n
  obtain ⟨d, hd, heq⟩ := hiff.mpr (fun _ _ _ _ => lt_of_le_of_lt countP_le_length (by decide)) a ha
    hlo hle
  refine ⟨d, ?_, congrArg HttpPushAction.streamOrdering heq⟩
  rw [hsent]
  exact hd

/-- The notification after 20 that have been read is not sent. -/
theorem process_leaves_unread :
    (process aliceConfig [plainRound (notifiedTables 20 21)] (alicePusher 21)).map
        (fun s' => (s'.sent.length, s'.lastStreamOrdering, s'.maxStreamOrdering)) = some (0, 0, 21) ∧
      (((notifiedTables 20 21).unreadBetween aliceConfig 0 21).map streamOrdering) = [21] :=
  ⟨by decide +kernel, by decide +kernel⟩

/-- The unread notification arrives in the first of two rounds. -/
theorem sent_foldl_notifiedTables :
    ([{ plainRound (notifiedTables 20 21) with newTokens := [21] }, plainRound (notifiedTables 20 21)].foldl
      (runRound aliceConfig) (alicePusher 20)).sent = [] :=
  Stuck.sent_foldl (show List.Nodup _ by decide +kernel) (notifiedTables_dispatchable 20 21)
    (forall_mem_cons.mpr ⟨plainRound_succeeds _ [21], forall_mem_singleton.mpr (plainRound_succeeds _ [])⟩)
    rfl ⟨by decide +kernel, by decide +kernel⟩

end HttpPusher
end Synapse.Push
