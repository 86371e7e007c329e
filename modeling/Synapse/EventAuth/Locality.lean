import Synapse.EventAuth.PowerLevels

/-!
# The rules read the declared keys

`auth_types_for_event` names the keys of the state that an event is checked
against; servers agree about the event if they agree about these keys. Each
rule is shown to depend on the keys that it looks up, and these are compared
with the declared ones.

One rule looks up a key that is not declared: `_check_power_levels` compares
the event with the event of its own `(type, state_key)`, and the `state_key` of
a power levels event need not be empty. That is the only exception
(`checkStateDependentAuthRules_local_iff`).
-/

namespace Synapse.EventAuth

open Synapse.Util List
open Except (ok.inj)

variable {o o' : IterOrder} {verifySigned : VerifySigned} {event : Event}
  {auth auth' : AuthState}

/-! ## Loops over a set -/

/-- The entries are the same, in whatever order the set is walked. -/
theorem entriesOf_order {oldList newList : PyValue} {entries : List PyValue}
    (h : entriesOf o oldList newList = .ok entries) (o' : IterOrder) :
    ∃ entries', entriesOf o' oldList newList = .ok entries' ∧ ∀ x, x ∈ entries' ↔ x ∈ entries := by
  unfold entriesOf at h ⊢
  obtain ⟨old, hold, h⟩ := bind_eq_ok.mp h
  obtain ⟨new, hnew, h⟩ := bind_eq_ok.mp h
  obtain ⟨set, hset, h⟩ := bind_eq_ok.mp h
  obtain rfl := ok.inj h
  refine ⟨o'.order set, ?_, fun x => o'.mem_order.trans o.mem_order.symm⟩
  rw [hold, hnew]
  show (uncaught (PyValue.toSet (old ++ new)) >>= _) = _
  rw [hset]
  rfl

theorem levelsToCheck_order {v : RoomVersion} {oldState newState : PyDict}
    {levels : List (PyValue × Option String)} (h : levelsToCheck o v oldState newState = .ok levels)
    (o' : IterOrder) : ∃ levels', levelsToCheck o' v oldState newState = .ok levels' ∧
      ∀ x, x ∈ levels' ↔ x ∈ levels := by
  obtain ⟨users, husers, h⟩ := bind_eq_ok.mp h
  obtain ⟨events, hevents, h⟩ := bind_eq_ok.mp h
  obtain ⟨notifications, hnotifications, h⟩ := bind_eq_ok.mp h
  obtain rfl := ok.inj h
  obtain ⟨users', husers', hmemUsers⟩ := entriesOf_order husers o'
  obtain ⟨events', hevents', hmemEvents⟩ := entriesOf_order hevents o'
  have hnotifications' : ∃ notifications',
      notificationEntries o' v oldState newState = .ok notifications' ∧
        ∀ x, x ∈ notifications' ↔ x ∈ notifications := by
    unfold notificationEntries at hnotifications ⊢
    split at hnotifications
    next hlimit =>
      rw [if_pos hlimit]
      exact entriesOf_order hnotifications o'
    next hlimit =>
      rw [if_neg hlimit]
      exact ⟨[], rfl, fun x => by rw [← ok.inj hnotifications]⟩
  obtain ⟨notifications', hnotifications', hmemNotifications⟩ := hnotifications'
  refine ⟨_, bind_eq_ok.mpr ⟨users', husers', bind_eq_ok.mpr ⟨events', hevents',
    bind_eq_ok.mpr ⟨notifications', hnotifications', rfl⟩⟩⟩, fun x => ?_⟩
  simp only [mem_append, mem_map, hmemUsers, hmemEvents, hmemNotifications]

/-! ## What each rule looks up -/

theorem getUserPowerLevel_congr (hpl : auth' powerLevelsKey = auth powerLevelsKey)
    (hcreate : auth' createKey = auth createKey) (userId : String) :
    getUserPowerLevel userId auth' = getUserPowerLevel userId auth := by
  unfold getUserPowerLevel getPowerLevelEvent
  rw [hpl, hcreate]

theorem getNamedLevel_congr (hpl : auth' powerLevelsKey = auth powerLevelsKey) (name : String)
    (default : ℤ) : getNamedLevel auth' name default = getNamedLevel auth name default := by
  unfold getNamedLevel getPowerLevelEvent
  rw [hpl]

theorem canFederate_congr (hcreate : auth' createKey = auth createKey) :
    canFederate auth' = canFederate auth := by
  unfold canFederate
  rw [hcreate]

/-- The keys that every rule may look up. -/
structure Common (event : Event) (auth auth' : AuthState) : Prop where
  powerLevels : auth' powerLevelsKey = auth powerLevelsKey
  create : auth' createKey = auth createKey
  sender : auth' (memberKey event.sender) = auth (memberKey event.sender)

namespace Common

section
variable (h : Common event auth auth')
include h

theorem userLevel (userId : String) : getUserPowerLevel userId auth' = getUserPowerLevel userId auth :=
  getUserPowerLevel_congr h.powerLevels h.create userId

theorem namedLevel (name : String) (default : ℤ) :
    getNamedLevel auth' name default = getNamedLevel auth name default :=
  getNamedLevel_congr h.powerLevels name default

theorem checkFederate : checkFederate event auth' = checkFederate event auth := by
  unfold EventAuth.checkFederate
  rw [canFederate_congr h.create]

theorem canSendEvent : canSendEvent event auth' = canSendEvent event auth := by
  unfold EventAuth.canSendEvent getPowerLevelEvent
  rw [h.powerLevels, h.userLevel]

theorem checkRedaction : checkRedaction event auth' = checkRedaction event auth := by
  unfold EventAuth.checkRedaction
  rw [h.userLevel, h.namedLevel]

theorem checkMayInvite : checkMayInvite event auth' = checkMayInvite event auth := by
  unfold EventAuth.checkMayInvite
  rw [h.userLevel, h.namedLevel]

/-- The power levels are compared with the event of the same `state_key`. -/
theorem checkPowerLevels
    (hown : ∀ k, event.stateKey = some k → auth' (event.type, k) = auth (event.type, k))
    (hok : checkPowerLevels o event auth = .ok ()) : checkPowerLevels o' event auth' = .ok () := by
  obtain ⟨userList, husers, hok⟩ := bind_eq_ok.mp hok
  obtain ⟨_, hvalid, hok⟩ := bind_eq_ok.mp hok
  obtain ⟨_, hints, hok⟩ := bind_eq_ok.mp hok
  obtain ⟨stateKey, hkey, hok⟩ := bind_eq_ok.mp hok
  refine bind_eq_ok.mpr ⟨userList, husers, bind_eq_ok.mpr ⟨(), hvalid, bind_eq_ok.mpr ⟨(), hints,
    bind_eq_ok.mpr ⟨stateKey, hkey, ?_⟩⟩⟩⟩
  rw [hown stateKey (stateKey_of_attr hkey)]
  cases hcurrent : auth (event.type, stateKey) with
  | none => rfl
  | some currentState =>
    rw [hcurrent] at hok
    obtain ⟨userLevel, huser, hok⟩ := bind_eq_ok.mp hok
    obtain ⟨levels, hlevels, hok⟩ := bind_eq_ok.mp hok
    obtain ⟨levels', hlevels', hmem⟩ := levelsToCheck_order hlevels o'
    refine bind_eq_ok.mpr ⟨userLevel, (h.userLevel _).trans huser, bind_eq_ok.mpr ⟨levels', hlevels',
      checkAll_ok_iff.mpr fun x hx => ?_⟩⟩
    exact checkAll_ok_iff.mp hok x ((hmem x).mp hx)

/-- The rules for events other than changes of membership. -/
theorem checkSend (hown : event.type = EventTypes.powerLevels → ∀ k, event.stateKey = some k →
      auth' (event.type, k) = auth (event.type, k))
    (hok : checkSend o event auth = .ok ()) : checkSend o' event auth' = .ok () := by
  obtain ⟨_, hjoined, hok⟩ := bind_eq_ok.mp hok
  refine bind_eq_ok.mpr ⟨(), by rw [h.sender]; exact hjoined, ?_⟩
  by_cases hinvite : event.type = EventTypes.thirdPartyInvite
  · rw [if_pos hinvite] at hok ⊢
    rw [h.checkMayInvite]
    exact hok
  · rw [if_neg hinvite] at hok ⊢
    obtain ⟨_, hsend, hok⟩ := bind_eq_ok.mp hok
    refine bind_eq_ok.mpr ⟨(), by rw [h.canSendEvent]; exact hsend, ?_⟩
    unfold checkSpecial at hok ⊢
    by_cases htype : event.type = EventTypes.powerLevels
    · rw [if_pos htype] at hok ⊢
      exact h.checkPowerLevels (hown htype) hok
    · rw [if_neg htype] at hok ⊢
      rw [h.checkRedaction]
      exact hok

end
end Common

/-! ## Changes of membership -/

theorem stateKey_of_federatedTarget {targetUserId : String}
    (h : federatedTarget event auth = .ok targetUserId) : event.stateKey = some (some targetUserId) := by
  obtain ⟨k, hk, h⟩ := bind_eq_ok.mp h
  obtain ⟨_, _, h⟩ := bind_eq_ok.mp h
  rw [stateKey_of_attr hk]
  cases k with
  | none => exact nomatch h
  | some target =>
    obtain ⟨_, _, h⟩ := bind_eq_ok.mp h
    rw [ok.inj (ite_error_eq_ok.mp h).2]

variable {info : MembershipInfo}

/-- The information about caller and target comes from the common keys and the
target's; the join rule is looked up apart. -/
theorem Common.membershipInfo (h : Common event auth auth') (htarget : ∀ k, event.stateKey = some k →
      auth' (EventTypes.member, k) = auth (EventTypes.member, k))
    (hok : membershipInfo event auth = .ok info) :
    membershipInfo event auth' = .ok { info with joinRule := joinRuleOf auth' } ∧
      info.joinRule = joinRuleOf auth := by
  unfold EventAuth.membershipInfo at hok ⊢
  have hfederated : federatedTarget event auth' = federatedTarget event auth := by
    unfold federatedTarget
    rw [canFederate_congr h.create]
  obtain ⟨target, htargetOk, hok⟩ := bind_eq_ok.mp hok
  have hmember : auth' (memberKey target) = auth (memberKey target) :=
    htarget _ (stateKey_of_federatedTarget htargetOk)
  rw [hfederated, htargetOk]
  show (hasMembership (auth' (memberKey event.sender)) Membership.join >>= _) = _ ∧ _
  simp only [h.sender, hmember, h.userLevel, h.namedLevel]
  obtain ⟨b₁, h₁, hok⟩ := bind_eq_ok.mp hok
  obtain ⟨b₂, h₂, hok⟩ := bind_eq_ok.mp hok
  obtain ⟨b₃, h₃, hok⟩ := bind_eq_ok.mp hok
  obtain ⟨b₄, h₄, hok⟩ := bind_eq_ok.mp hok
  obtain ⟨b₅, h₅, hok⟩ := bind_eq_ok.mp hok
  obtain ⟨l₁, h₆, hok⟩ := bind_eq_ok.mp hok
  obtain ⟨l₂, h₇, hok⟩ := bind_eq_ok.mp hok
  obtain ⟨l₃, h₈, hok⟩ := bind_eq_ok.mp hok
  obtain ⟨l₄, h₉, hok⟩ := bind_eq_ok.mp hok
  obtain rfl := ok.inj hok
  rw [h₁, h₂, h₃, h₄, h₅, h₆, h₇, h₈, h₉]
  exact ⟨rfl, rfl⟩

/-- The keys that a change of membership may look up besides the common ones. -/
structure MemberKeys (event : Event) (membership : PyValue) (auth auth' : AuthState) : Prop where
  target : ∀ k, event.stateKey = some k → auth' (EventTypes.member, k) = auth (EventTypes.member, k)
  joinRules : membership.isStr Membership.join ∨ membership.isStr Membership.invite ∨
    membership.isStr Membership.knock → auth' joinRulesKey = auth joinRulesKey
  invites : ∀ keys, inviteKeys event membership = .ok keys → ∀ k ∈ keys, auth' k = auth k
  authorisers : ∀ keys, authoriserKeys event membership = .ok keys → ∀ k ∈ keys, auth' k = auth k

namespace MemberKeys
variable {membership : PyValue}

section
variable (h : MemberKeys event membership auth auth')
include h

theorem joinRuleOf (hm : membership.isStr Membership.join ∨ membership.isStr Membership.invite ∨
      membership.isStr Membership.knock) : joinRuleOf auth' = joinRuleOf auth := by
  unfold EventAuth.joinRuleOf
  rw [h.joinRules hm]

theorem verifyThirdPartyInvite (hm : membership.isStr Membership.invite = true) :
    verifyThirdPartyInvite verifySigned event auth' = verifyThirdPartyInvite verifySigned event auth := by
  unfold EventAuth.verifyThirdPartyInvite
  split
  next tpi htpi =>
    split
    next signed hsigned =>
      split
      next mxid token signatures _ htoken _ =>
        -- the token is the declared one
        have hkeys : inviteKeys event membership = contentKey EventTypes.thirdPartyInvite token := by
          unfold inviteKeys
          rw [hm, htpi]
          unfold inviteToken PyValue.item PyDict.index
          dsimp only
          rw [hsigned]
          show (uncaught (PyDict.index signed "token") >>= _) = _
          unfold PyDict.index
          rw [htoken]
          rfl
        have hfind : findInvite token auth' = findInvite token auth := by
          unfold findInvite
          split
          · rw [h.invites _ hkeys _ (mem_singleton.mpr rfl)]
          · rw [h.invites _ hkeys _ (mem_singleton.mpr rfl)]
          · rfl
        rw [hfind]
      · rfl
    · rfl
  · rfl

section
variable (hc : Common event auth auth') (hm : membership.isStr Membership.join = true)
include hc hm

theorem checkAuthorisingUser (hv : event.roomVersion.restrictedJoinRule = true) (info : MembershipInfo) :
    checkAuthorisingUser event info auth' = checkAuthorisingUser event info auth := by
  unfold EventAuth.checkAuthorisingUser
  split
  · rfl
  next user huser =>
    have hlookup : event.content.lookup EventContentFields.authorisingUser = some (.str user) := by
      unfold PyDict.getD at huser
      cases hl : event.content.lookup EventContentFields.authorisingUser with
      | none => rw [hl] at huser; exact nomatch huser
      | some v => rw [hl] at huser; exact congrArg some huser
    have hkeys : authoriserKeys event membership = .ok [(EventTypes.member, some user)] := by
      unfold authoriserKeys
      rw [hm, hv, hlookup]
      rfl
    rw [show auth' (memberKey user) = auth (memberKey user) from
      h.authorisers _ hkeys _ (mem_singleton.mpr rfl), hc.userLevel]
  · rfl

theorem checkJoin (info : MembershipInfo) : checkJoin event info auth' = checkJoin event info auth := by
  have hv : ((event.roomVersion.restrictedJoinRule = true ∧
      info.joinRule.isStr JoinRules.restricted = true) ∨
      (event.roomVersion.knockRestrictedJoinRule = true ∧
        info.joinRule.isStr JoinRules.knockRestricted = true)) →
      event.roomVersion.restrictedJoinRule = true := by
    rintro (⟨hv, _⟩ | ⟨hv, _⟩)
    · exact hv
    · exact RoomVersion.restrictedJoinRule_of_knockRestrictedJoinRule _ hv
  unfold EventAuth.checkJoin
  dsimp only
  by_cases hrestricted : (event.roomVersion.restrictedJoinRule = true ∧
      info.joinRule.isStr JoinRules.restricted = true) ∨
      (event.roomVersion.knockRestrictedJoinRule = true ∧
        info.joinRule.isStr JoinRules.knockRestricted = true)
  · rw [h.checkAuthorisingUser hc hm (hv hrestricted)]
  · rw [if_neg hrestricted, if_neg hrestricted]

end

/-- The decision looks up declared keys only. Where the join rule is not
declared, it makes no difference. -/
theorem decideMembership (hc : Common event auth auth')
    (hinfo : info.joinRule = EventAuth.joinRuleOf auth) : decideMembership verifySigned event membership
        { info with joinRule := EventAuth.joinRuleOf auth' } auth' =
      decideMembership verifySigned event membership info auth := by
  by_cases hm : membership.isStr Membership.join ∨ membership.isStr Membership.invite ∨
      membership.isStr Membership.knock
  · rw [h.joinRuleOf hm, ← hinfo]
    unfold EventAuth.decideMembership
    by_cases hinvite : membership.isStr Membership.invite = true
    · unfold checkThirdPartyInvite
      rw [h.verifyThirdPartyInvite hinvite]
      simp only [hinvite, if_true, true_and]
    · by_cases hjoin : membership.isStr Membership.join = true
      · rw [h.checkJoin hc hjoin]
        simp only [hinvite, hjoin, Bool.false_eq_true, false_and, if_false, if_true]
      · unfold checkLeave
        rw [hc.namedLevel]
        simp only [hinvite, hjoin, Bool.false_eq_true, false_and, if_false]
  · obtain ⟨hjoin, hm⟩ := not_or.mp hm
    obtain ⟨hinvite, hknock⟩ := not_or.mp hm
    unfold EventAuth.decideMembership checkLeave checkBan
    rw [hc.namedLevel]
    simp only [hjoin, hinvite, hknock, Bool.false_eq_true, false_and, and_false, if_false]

end

/-- A change of membership looks up declared keys only. -/
theorem isMembershipChangeAllowed (h : ∀ m, event.membership = .ok m → MemberKeys event m auth auth')
    (hc : Common event auth auth') (hok : isMembershipChangeAllowed verifySigned event auth = .ok ()) :
    isMembershipChangeAllowed verifySigned event auth' = .ok () := by
  obtain ⟨m, hm, hok⟩ := bind_eq_ok.mp hok
  obtain ⟨creatorJoining, hcreator, hok⟩ := bind_eq_ok.mp hok
  have hcreator' : isCreatorJoining event m auth' = .ok creatorJoining := by
    rw [← hcreator]
    unfold isCreatorJoining
    rw [hc.create]
  refine bind_eq_ok.mpr ⟨m, hm, bind_eq_ok.mpr ⟨creatorJoining, hcreator', ?_⟩⟩
  cases creatorJoining with
  | true => rfl
  | false =>
    obtain ⟨info, hinfo, hok⟩ := bind_eq_ok.mp (show _ >>= _ = _ from hok)
    obtain ⟨hinfo', hrule⟩ := hc.membershipInfo (h m hm).target hinfo
    refine bind_eq_ok.mpr ⟨_, hinfo', ?_⟩
    rw [(h m hm).decideMembership hc hrule]
    exact hok

end MemberKeys

/-! ## The declared keys -/

section
variable {types : List AuthKey} (htypes : authTypesForEvent event = .ok types)
  (hagree : ∀ k ∈ types, auth' k = auth k)
include htypes hagree

theorem common_of_types (hcreate : event.type ≠ EventTypes.create) : Common event auth auth' := by
  have hsub : ∀ k ∈ [powerLevelsKey, memberKey event.sender, createKey], k ∈ types := by
    intro k hk
    unfold authTypesForEvent at htypes
    rw [if_neg hcreate] at htypes
    split at htypes
    · obtain ⟨_, _, htypes⟩ := bind_eq_ok.mp htypes
      obtain ⟨_, _, htypes⟩ := bind_eq_ok.mp htypes
      obtain ⟨_, _, htypes⟩ := bind_eq_ok.mp htypes
      obtain ⟨_, _, htypes⟩ := bind_eq_ok.mp htypes
      rw [← ok.inj htypes]
      simp only [mem_append]
      exact .inl (.inl (.inl (.inl hk)))
    · rwa [← ok.inj htypes]
  exact ⟨hagree _ (hsub _ (by simp)), hagree _ (hsub _ (by simp)), hagree _ (hsub _ (by simp))⟩

theorem memberKeys_of_types (hmember : event.type = EventTypes.member) {m : PyValue}
    (hm : event.membership = .ok m) : MemberKeys event m auth auth' := by
  unfold authTypesForEvent at htypes
  rw [if_neg (by rw [hmember]; decide)] at htypes
  rw [if_pos hmember] at htypes
  obtain ⟨m', hm', htypes⟩ := bind_eq_ok.mp htypes
  obtain ⟨stateKey, hkey, htypes⟩ := bind_eq_ok.mp htypes
  obtain ⟨invites, hinvites, htypes⟩ := bind_eq_ok.mp htypes
  obtain ⟨authorisers, hauthorisers, htypes⟩ := bind_eq_ok.mp htypes
  obtain rfl := ok.inj (hm'.symm.trans hm)
  rw [← ok.inj htypes] at hagree
  simp only [mem_append] at hagree
  refine ⟨fun k hk => ?_, fun hrule => ?_, fun keys hkeys k hk => ?_, fun keys hkeys k hk => ?_⟩
  · rw [stateKey_of_attr hkey] at hk
    obtain rfl := Option.some.inj hk
    exact hagree _ (.inl (.inl (.inr (mem_singleton.mpr rfl))))
  · apply hagree _ (.inl (.inl (.inl (.inr _))))
    rw [if_pos (by rcases hrule with h | h | h <;> rw [h] <;> simp)]
    exact mem_singleton.mpr rfl
  · rw [ok.inj (hkeys.symm.trans hinvites)] at hk
    exact hagree _ (.inl (.inr hk))
  · rw [ok.inj (hkeys.symm.trans hauthorisers)] at hk
    exact hagree _ (.inr hk)

/-- An event that is accepted against one state is accepted against any state
with the same events at the declared keys, unless it compares itself with an
event at another key. -/
theorem checkAgainst_of_types (hcreate : event.type ≠ EventTypes.create)
    (hown : event.type = EventTypes.powerLevels → event.stateKey = some (some ""))
    (hok : checkAgainst o verifySigned event auth = .ok ()) :
    checkAgainst o' verifySigned event auth' = .ok () := by
  have hcommon := common_of_types htypes hagree hcreate
  obtain ⟨_, hfederate, hok⟩ := bind_eq_ok.mp hok
  refine bind_eq_ok.mpr ⟨(), by rw [hcommon.checkFederate]; exact hfederate, ?_⟩
  by_cases haliases : event.type = EventTypes.aliases ∧ event.roomVersion.specialCaseAliasesAuth = true
  · rw [if_pos haliases] at hok ⊢
    exact hok
  · rw [if_neg haliases] at hok ⊢
    by_cases hmember : event.type = EventTypes.member
    · rw [if_pos hmember] at hok ⊢
      exact MemberKeys.isMembershipChangeAllowed
        (fun m hm => memberKeys_of_types htypes hagree hmember hm) hcommon hok
    · rw [if_neg hmember] at hok ⊢
      refine hcommon.checkSend (fun htype k hk => ?_) hok
      rw [hown htype] at hk
      rw [← Option.some.inj hk, htype]
      exact hcommon.powerLevels

end

/-! ## The key that is not declared -/

/-- An event that is compared with one at a key that is not declared: power
levels at another key than the empty one, which is not the name of another
user, and well-formed otherwise. -/
structure ComparedElsewhere (event : Event) : Prop where
  type : event.type = EventTypes.powerLevels
  stateKey : ∃ k, event.stateKey = some (some k) ∧ k ≠ "" ∧
    (k.toList.head? = some '@' → k = event.sender)
  roomDomain : ∃ domain, getDomainFromId event.roomId = .ok domain
  senderDomain : ∃ domain, getDomainFromId event.sender = .ok domain
  users : ∃ users, PyDict.getD event.content "users" (.dict []) = .dict users ∧
    validateUsers users = .ok ()
  levels : rejectStringyLevels event = .ok ()

/-- Power levels that some state accepts are of this kind, unless they are at
the declared key. -/
theorem ComparedElsewhere.of_accepted (htype : event.type = EventTypes.powerLevels)
    (hkey : event.stateKey ≠ some (some "")) (hok : checkAgainst o verifySigned event auth = .ok ()) :
    ComparedElsewhere event := by
  obtain ⟨_, hfederate, _⟩ := bind_eq_ok.mp hok
  obtain ⟨roomDomain, hroom, hfederate⟩ := bind_eq_ok.mp hfederate
  obtain ⟨senderDomain, hsender, _⟩ := bind_eq_ok.mp hfederate
  obtain ⟨hsend, hlevels⟩ := checkAgainst_powerLevels htype hok
  obtain ⟨users, husers, hlevels⟩ := bind_eq_ok.mp hlevels
  obtain ⟨_, hvalid, hlevels⟩ := bind_eq_ok.mp hlevels
  obtain ⟨_, hints, hlevels⟩ := bind_eq_ok.mp hlevels
  obtain ⟨key, hattr, _⟩ := bind_eq_ok.mp hlevels
  have hstate := stateKey_of_attr hattr
  obtain ⟨_, _, hsend⟩ := bind_eq_ok.mp hsend
  obtain ⟨_, _, hsend⟩ := bind_eq_ok.mp hsend
  rw [hstate] at hsend hkey
  cases key with
  | none => exact nomatch (ite_error_eq_ok.mp hsend).2
  | some k =>
    have hown := (ite_error_eq_ok.mp (ite_error_eq_ok.mp hsend).2).1
    exact ⟨htype, ⟨k, hstate, fun h => hkey (by rw [h]), fun h => by_contra fun hne => hown ⟨h, hne⟩⟩,
      ⟨_, hroom⟩, ⟨_, hsender⟩, ⟨users, PyValue.asDict_eq_ok.mp (uncaught_eq_ok.mp husers), hvalid⟩, hints⟩

/-- The create event of a room of the sender. -/
def createdBySender (event : Event) : Event :=
  { event with
    type := EventTypes.create
    stateKey := some (some "")
    content := [(EventContentFields.roomCreator, .str event.sender)] }

/-- The join of the sender. -/
def joinOfSender (event : Event) : Event :=
  { event with
    type := EventTypes.member
    stateKey := some (some event.sender)
    content := [("membership", .str Membership.join)] }

theorem authMap_ofSender {auth : AuthState}
    (h : authMap [createdBySender event, joinOfSender event] = auth) :
    auth (memberKey event.sender) = some (joinOfSender event) ∧
      auth createKey = some (createdBySender event) ∧
      ∀ stateKey, auth (EventTypes.powerLevels, stateKey) = none := by
  have hmap : ∀ key, auth key =
      if key = memberKey event.sender then some (joinOfSender event)
      else if key = createKey then some (createdBySender event) else none := by
    intro key
    rw [← h, ← nil_append [createdBySender event, _], append_cons,
      authMap_append (by simp [createdBySender]) rfl, authMap_append (by simp) rfl]
    rfl
  simp +decide [hmap, createKey, memberKey]

/-- The creator has the power to set levels where there is nothing to compare
them with. -/
theorem ComparedElsewhere.accepted (h : ComparedElsewhere event) :
    checkAgainst o verifySigned event (authMap [createdBySender event, joinOfSender event]) = .ok () := by
  obtain ⟨htype, ⟨k, hkey, hne, hown⟩, ⟨_, hroom⟩, ⟨_, hsender⟩, ⟨users, husers, hvalid⟩, hlevels⟩ := h
  generalize hauth : authMap [createdBySender event, joinOfSender event] = auth
  obtain ⟨hmember, hcreate, hnone⟩ := authMap_ofSender hauth
  have hfederate : checkFederate event auth = .ok () := by
    refine bind_eq_ok.mpr ⟨_, hroom, bind_eq_ok.mpr ⟨_, hsender, if_neg fun h => ?_⟩⟩
    unfold canFederate at h
    rw [hcreate] at h
    exact Bool.false_ne_true h.2
  have hsendLevel : getSendLevel event.type event.getStateKey (getPowerLevelEvent auth) = .ok 50 := by
    unfold getPowerLevelEvent Event.getStateKey
    rw [powerLevelsKey, hnone, hkey]
    rfl
  have huserLevel : getUserPowerLevel event.sender auth = .ok 100 := by
    unfold getUserPowerLevel getPowerLevelEvent
    rw [powerLevelsKey, hnone, hcreate]
    refine bind_eq_ok.mpr ⟨.str event.sender, ?_, congrArg Except.ok (if_pos (by simp [PyValue.isStr]))⟩
    unfold creatorOf
    split <;> rfl
  have hsend : canSendEvent event auth = .ok () := by
    refine bind_eq_ok.mpr ⟨_, hsendLevel, bind_eq_ok.mpr ⟨_, huserLevel, ?_⟩⟩
    rw [if_neg (by decide), hkey]
    exact if_neg fun h => h.2 (hown h.1)
  have hspecial : checkSpecial o event auth = .ok () := by
    unfold checkSpecial checkPowerLevels Event.getStateKeyAttr
    rw [if_pos htype, husers, htype, hkey]
    refine bind_eq_ok.mpr ⟨users, rfl, bind_eq_ok.mpr ⟨(), hvalid, bind_eq_ok.mpr ⟨(), hlevels, ?_⟩⟩⟩
    refine bind_eq_ok.mpr ⟨some k, rfl, ?_⟩
    rw [hnone]
  refine bind_eq_ok.mpr ⟨(), hfederate, ?_⟩
  rw [if_neg (fun h => absurd (htype.symm.trans h.1) (by decide)), if_neg (by rw [htype]; decide)]
  refine bind_eq_ok.mpr ⟨(), by rw [hmember]; rfl, ?_⟩
  rw [if_neg (by rw [htype]; decide)]
  exact bind_eq_ok.mpr ⟨(), hsend, hspecial⟩

section
variable {authEvents : List Event} {k : String}

/-- An event at the key of another one, with a level for bans. -/
def blocker (event : Event) (n : ℤ) : Event := { event with content := [("ban", .int n)] }

variable (hstate : ∀ e ∈ authEvents, e.stateKey.isSome = true)
  (htype : event.type = EventTypes.powerLevels) (hkey : event.stateKey = some (some k)) (hne : k ≠ "")
include hstate htype hkey hne

/-- An event at another key of the power levels does not show at the declared
keys of a power levels event. -/
theorem authMap_append_declared (n : ℤ) : ∀ key ∈ [powerLevelsKey, memberKey event.sender, createKey],
      authMap (authEvents ++ [blocker event n]) key = authMap authEvents key := by
  intro key hmem
  rw [authMap_append hstate (e := blocker event n) hkey, if_neg]
  show ¬ key = (event.type, some k)
  rw [htype]
  rintro rfl
  simp only [mem_cons, not_mem_nil, or_false, powerLevelsKey, memberKey, createKey,
    Prod.mk.injEq, Option.some.injEq] at hmem
  rcases hmem with ⟨_, h⟩ | ⟨h, _⟩ | ⟨h, _⟩
  · exact hne h
  · exact absurd h (by decide)
  · exact absurd h (by decide)

/-- A level for bans that keeps a power levels event out is above everything
that the sender may set. -/
theorem ban_le_of_accepted {n : ℤ}
    (hok : checkAgainst o verifySigned event (authMap (authEvents ++ [blocker event n])) = .ok ()) :
    ∃ L e, getUserPowerLevel event.sender (authMap authEvents) = .ok L ∧
      entryLevel event.content none "ban" = .ok e ∧ (e = some n ∨ n ≤ L) := by
  obtain ⟨_, hok⟩ := checkAgainst_powerLevels htype hok
  have hcurrent : authMap (authEvents ++ [blocker event n]) (event.type, some k) =
      some (blocker event n) := by
    rw [authMap_append hstate (e := blocker event n) hkey]
    exact if_pos rfl
  obtain ⟨L, _, hL, _, _⟩ := checkPowerLevels_compared hok hkey hcurrent
  have hban : Compared event.roomVersion "ban" none := show "ban" ∈ namedLevels by decide
  obtain ⟨e, e', he, he', hchange⟩ :=
    mayChange_of_checkPowerLevels hok hkey hcurrent hL hban fun h => absurd rfl h
  obtain rfl : some n = e := ok.inj he
  refine ⟨L, e', ?_, he', hchange.imp id fun h => h.1 n rfl⟩
  have hdeclared := authMap_append_declared hstate htype hkey hne n
  rw [← hL, getUserPowerLevel_congr (hdeclared _ (by simp)) (hdeclared _ (by simp))]

/-- Every state of the room can be extended at the key of a power levels event
so that the event is rejected. -/
theorem exists_blocker :
    ∃ n : ℤ, checkAgainst o verifySigned event (authMap (authEvents ++ [blocker event n])) ≠ .ok () := by
  by_contra hno
  simp only [not_exists, not_not] at hno
  have hban := fun n => ban_le_of_accepted hstate htype hkey hne (hno n)
  obtain ⟨L, e, hL, he, _⟩ := hban 0
  obtain ⟨L', e', hL', he', h⟩ := hban (max L (e.getD 0) + 1)
  obtain rfl := ok.inj (hL.symm.trans hL')
  obtain rfl := ok.inj (he.symm.trans he')
  rcases h with h | h
  · have hget : e.getD 0 = max L (e.getD 0) + 1 := by
      conv_lhs => rw [h]
      rfl
    omega
  · omega

end

/-! ## The result -/

/-- Whether a state that has the declared events decides about an event. -/
def Local (verifySigned : VerifySigned) (event : Event) : Prop :=
  ∀ types, authTypesForEvent event = .ok types → ∀ (o o' : IterOrder) (authEvents authEvents' : List Event),
    RoomState event authEvents → RoomState event authEvents' →
    (∀ k ∈ types, authMap authEvents' k = authMap authEvents k) →
    (checkStateDependentAuthRules o verifySigned event authEvents = .ok () ↔
      checkStateDependentAuthRules o' verifySigned event authEvents' = .ok ())

/-- An event that is not compared elsewhere passes in both states or in none. -/
theorem accepted_of_agree {authEvents authEvents' : List Event}
    (h : ¬ ComparedElsewhere event) (htypes : authTypesForEvent event = .ok types)
    (hs : RoomState event authEvents) (hs' : RoomState event authEvents')
    (hagree : ∀ k ∈ types, authMap authEvents' k = authMap authEvents k)
    (hok : checkStateDependentAuthRules o verifySigned event authEvents = .ok ()) :
    checkStateDependentAuthRules o' verifySigned event authEvents' = .ok () := by
  by_cases hcreate : event.type = EventTypes.create
  · unfold checkStateDependentAuthRules
    rw [if_pos hcreate]
  · rw [checkStateDependentAuthRules_eq hcreate hs.isState] at hok
    have hown : event.type = EventTypes.powerLevels → event.stateKey = some (some "") := by
      intro htype
      by_contra hkey
      exact h (.of_accepted htype hkey hok)
    rw [checkStateDependentAuthRules_eq hcreate hs'.isState]
    exact checkAgainst_of_types htypes hagree hcreate hown hok

/-- The declared keys decide about an event exactly if it is not compared with
an event at another key. -/
theorem checkStateDependentAuthRules_local_iff :
    Local verifySigned event ↔ ¬ ComparedElsewhere event := by
  constructor
  · intro hlocal h
    obtain ⟨k, hk, hne, _⟩ := h.stateKey
    have htype := h.type
    have hcreate : event.type ≠ EventTypes.create := by rw [htype]; decide
    have hs : RoomState event [createdBySender event, joinOfSender event] :=
      ⟨by simp [createdBySender, joinOfSender], by simp [createdBySender, joinOfSender],
        by simp [createdBySender, joinOfSender]⟩
    obtain ⟨n, hblocked⟩ := exists_blocker hs.isState htype hk hne
    have htypes : authTypesForEvent event = .ok [powerLevelsKey, memberKey event.sender, createKey] := by
      unfold authTypesForEvent
      rw [if_neg hcreate]
      exact if_neg (by rw [htype]; decide)
    have hs' : RoomState event ([createdBySender event, joinOfSender event] ++ [blocker event n]) :=
      hs.append rfl rfl (by rw [show (blocker event n).stateKey = some (some k) from hk]; rfl)
    have hagree := authMap_append_declared hs.isState htype hk hne n
    have hiff := hlocal _ htypes .insertion .insertion _ _ hs hs' hagree
    rw [checkStateDependentAuthRules_eq hcreate hs.isState,
      checkStateDependentAuthRules_eq hcreate hs'.isState] at hiff
    exact hblocked (hiff.mp h.accepted)
  · intro h types htypes o o' authEvents authEvents' hs hs' hagree
    exact ⟨accepted_of_agree h htypes hs hs' hagree,
      accepted_of_agree h htypes hs' hs fun k hk => (hagree k hk).symm⟩

/-- Alice's power levels at a key of their own. -/
def alicesOtherLevels : Event :=
  roomEvent "$alicesOtherLevels" EventTypes.powerLevels "other" "@alice:hs" [("ban", .int 100)]

/-- Bob's power levels at the same key. -/
def bobsOtherLevels : Event :=
  roomEvent "$bobsOtherLevels" EventTypes.powerLevels "other" "@bob:hs" [("ban", .int 60)]

/-- Alice's event is accepted in the room. Bob's event is accepted before it and
rejected after it, and the declared keys do not show the difference. -/
theorem bobsOtherLevels_not_local :
    authTypesForEvent bobsOtherLevels = .ok [powerLevelsKey, memberKey "@bob:hs", createKey] ∧
      (∀ k ∈ [powerLevelsKey, memberKey "@bob:hs", createKey],
        authMap (aliceAndBob ++ [alicesOtherLevels]) k = authMap aliceAndBob k) ∧
      checkStateDependentAuthRules .insertion (fun _ _ _ _ => .ok ()) alicesOtherLevels aliceAndBob =
        .ok () ∧
      checkStateDependentAuthRules .insertion (fun _ _ _ _ => .ok ()) bobsOtherLevels aliceAndBob =
        .ok () ∧
      checkStateDependentAuthRules .insertion (fun _ _ _ _ => .ok ()) bobsOtherLevels
          (aliceAndBob ++ [alicesOtherLevels]) =
        forbidden "You don't have permission to add ops level greater than your own" [] := by
  refine ⟨rfl, ?_, rfl, rfl, rfl⟩
  intro k hk
  simp only [mem_cons, not_mem_nil, or_false] at hk
  rcases hk with rfl | rfl | rfl <;> rfl

end Synapse.EventAuth
