import Synapse.EventAuth.Rules

/-!
# Power levels cannot be escalated

`_check_power_levels` compares the levels of a power levels event with those of
the event that it replaces, entry by entry. An entry that changes may have
neither had nor get a level above the sender's. The level of a user comes from
an entry of its own or from `users_default`, both of which are checked, so it is
bounded as well (`checkStateDependentAuthRules_restrained`).

No assumption on the levels is needed: the checks convert every level that they
compare, so an event is accepted only if the conversions succeed.
-/

namespace Synapse.EventAuth

open Synapse.Util
open Except (ok.inj)
open PyDict (getD has index)

variable {o : IterOrder} {verifySigned : VerifySigned} {event : Event} {auth : AuthState}
  {oldState newState : PyDict} {L : ℤ} {dir : Option String} {name : String}

/-! ## Entries -/

/-- The dictionary that an entry is looked up in. -/
def location (content : PyDict) : Option String → PyValue
  | some dir => getD content dir (.dict [])
  | none => .dict content

def entryLevel (content : PyDict) (dir : Option String) (name : String) : Check (Option ℤ) :=
  levelAt (location content dir) (.str name)

/-- The entries that the rules compare. -/
def Compared (v : RoomVersion) (name : String) : Option String → Prop
  | none => name ∈ namedLevels
  | some dir => dir = "users" ∨ dir = "events" ∨
      (dir = "notifications" ∧ v.limitNotificationsPowerLevels = true)

def HasEntry (content : PyDict) (dir : Option String) (name : String) : Prop :=
  ∃ fields v, location content dir = .dict fields ∧ fields.lookup name = some v

variable {fields : PyDict}

theorem levelAt_dict : levelAt (.dict fields) (.str name) =
      ((fields.lookup name).elim (.ok none) fun v => (uncaught v.toInt).map some) := by
  show ((if has fields name then (uncaught (index fields name) >>= fun v => _)
    else _)) = _
  unfold has index
  cases fields.lookup name with
  | none => rfl
  | some v =>
    cases uncaught v.toInt <;> rfl

variable {n : ℤ}

theorem levelAt_dict_eq_ok {level : Option ℤ} (h : levelAt (.dict fields) (.str name) = .ok level) :
    (fields.lookup name = none ∧ level = none) ∨
      ∃ v n, fields.lookup name = some v ∧ v.toInt = .ok n ∧ level = some n := by
  rw [levelAt_dict] at h
  cases hv : fields.lookup name with
  | none => rw [hv] at h; exact .inl ⟨rfl, (ok.inj h).symm⟩
  | some v =>
    rw [hv] at h
    change (uncaught v.toInt).map some = _ at h
    cases hn : uncaught v.toInt with
    | error e => rw [hn] at h; exact absurd h (by simp [Except.map])
    | ok m => rw [hn] at h; exact .inr ⟨v, m, rfl, uncaught_eq_ok.mp hn, (ok.inj h).symm⟩

variable {content : PyDict}

/-- Only a dictionary has a level for a string. -/
theorem hasEntry_of_entryLevel (h : entryLevel content dir name = .ok (some n)) :
    HasEntry content dir name := by
  unfold entryLevel at h
  unfold HasEntry
  generalize location content dir = loc at h ⊢
  cases loc with
  | dict fields =>
    rcases levelAt_dict_eq_ok h with ⟨_, hnone⟩ | ⟨v, _, hv, _⟩
    · exact nomatch hnone
    · exact ⟨fields, v, rfl, hv⟩
  | _ =>
    exfalso
    obtain ⟨present, _, h⟩ := bind_eq_ok.mp h
    cases present with
    | false => exact absurd (ok.inj h) (by simp)
    | true =>
      obtain ⟨x, hx, _⟩ := bind_eq_ok.mp (show _ >>= _ = _ from h)
      exact absurd hx (by simp [PyValue.item, PyValue.index?, uncaught])

/-! ## The comparison of two events -/

/-- An entry that is there, before or after, is among the entries. -/
theorem mem_entriesOf {dir : String} {entries : List PyValue}
    (hentries : entriesOf o (getD oldState dir (.dict []))
      (getD newState dir (.dict [])) = .ok entries)
    (h : HasEntry oldState dir name ∨ HasEntry newState dir name) : .str name ∈ entries := by
  obtain ⟨old, hold, hentries⟩ := bind_eq_ok.mp hentries
  obtain ⟨new, hnew, hentries⟩ := bind_eq_ok.mp hentries
  obtain ⟨set, hset, hentries⟩ := bind_eq_ok.mp hentries
  rw [← ok.inj hentries, o.mem_order]
  apply PyValue.str_mem_toSet (uncaught_eq_ok.mp hset)
  have hiter : ∀ {content : PyDict} {l : List PyValue},
      uncaught (getD content dir (.dict [])).iter = .ok l →
      HasEntry content dir name → .str name ∈ l := by
    intro content l hl hentry
    obtain ⟨fields, v, hloc, hv⟩ := hentry
    rw [show getD content dir (.dict []) = .dict fields from hloc] at hl
    rw [← ok.inj hl]
    exact List.mem_map.mpr ⟨(name, v), PyDict.mem_of_lookup hv, rfl⟩
  rcases h with h | h
  · exact List.mem_append_left _ (hiter hold h)
  · exact List.mem_append_right _ (hiter hnew h)

/-- The top-level levels are compared, and every entry that is there, before or
after. -/
theorem mem_levelsToCheck {v : RoomVersion} {levels : List (PyValue × Option String)}
    (hlevels : levelsToCheck o v oldState newState = .ok levels) (hdir : Compared v name dir)
    (h : dir ≠ none → HasEntry oldState dir name ∨ HasEntry newState dir name) :
    (.str name, dir) ∈ levels := by
  obtain ⟨users, husers, hlevels⟩ := bind_eq_ok.mp hlevels
  obtain ⟨events, hevents, hlevels⟩ := bind_eq_ok.mp hlevels
  obtain ⟨notifications, hnotifications, hlevels⟩ := bind_eq_ok.mp hlevels
  rw [← ok.inj hlevels]
  simp only [List.mem_append, List.mem_map]
  cases dir with
  | none => exact .inl (.inl (.inl ⟨name, hdir, rfl⟩))
  | some dir =>
    have hentry := h (by simp)
    rcases hdir with rfl | rfl | ⟨rfl, hlimit⟩
    · exact .inl (.inl (.inr ⟨_, mem_entriesOf husers hentry, rfl⟩))
    · exact .inl (.inr ⟨_, mem_entriesOf hevents hentry, rfl⟩)
    · unfold notificationEntries at hnotifications
      rw [if_pos hlimit] at hnotifications
      exact .inr ⟨_, mem_entriesOf hnotifications hentry, rfl⟩

/-- How a sender of level `L` may change an entry: not at all, or between levels
up to theirs. Of the users at their level they may change themselves only. -/
def MayChange (sender : String) (L : ℤ) (dir : Option String) (name : String)
    (oldLevel newLevel : Option ℤ) : Prop :=
  newLevel = oldLevel ∨ (∀ n, oldLevel = some n → n ≤ L) ∧ (∀ n, newLevel = some n → n ≤ L) ∧
    (dir = some "users" → name ≠ sender → oldLevel ≠ some L)

theorem checkLevel_ok (h : checkLevel event L oldState newState (.str name, dir) = .ok ()) :
    ∃ oldLevel newLevel, entryLevel oldState dir name = .ok oldLevel ∧
      entryLevel newState dir name = .ok newLevel ∧
      MayChange event.sender L dir name oldLevel newLevel := by
  obtain ⟨oldLevel, hold, h⟩ := bind_eq_ok.mp h
  obtain ⟨newLevel, hnew, h⟩ := bind_eq_ok.mp h
  refine ⟨oldLevel, newLevel, ?_, ?_, ?_⟩
  · cases dir <;> exact hold
  · cases dir <;> exact hnew
  · split at h
    next heq => exact .inl heq.2
    · obtain ⟨hown, h⟩ := ite_error_eq_ok.mp h
      obtain ⟨holdLe, hnewLe⟩ := not_or.mp (ite_error_eq_ok.mp h).1
      refine .inr ⟨fun n hn => ?_, fun n hn => ?_, fun hdir hne heq => hown ⟨hdir, ?_, heq⟩⟩
      · rw [hn] at holdLe
        simpa using holdLe
      · rw [hn] at hnewLe
        simpa using hnewLe
      · simp [PyValue.isStr, hne]

/-! ## Accepted events -/

/-- What is checked of a power levels event. -/
theorem checkAgainst_powerLevels (htype : event.type = EventTypes.powerLevels)
    (hok : checkAgainst o verifySigned event auth = .ok ()) :
    canSendEvent event auth = .ok () ∧ checkPowerLevels o event auth = .ok () := by
  obtain ⟨_, _, hok⟩ := bind_eq_ok.mp hok
  rw [if_neg (fun h => absurd (htype.symm.trans h.1) (by decide)), if_neg (by rw [htype]; decide)] at hok
  obtain ⟨_, _, hok⟩ := bind_eq_ok.mp hok
  rw [if_neg (by rw [htype]; decide)] at hok
  obtain ⟨_, hsend, hok⟩ := bind_eq_ok.mp hok
  unfold checkSpecial at hok
  rw [if_pos htype] at hok
  exact ⟨hsend, hok⟩

variable {k : Option String}
  {current : Event} (hok : checkPowerLevels o event auth = .ok ()) (hkey : event.stateKey = some k)
  (hcurrent : auth (event.type, k) = some current)
include hok hkey hcurrent in
/-- The comparison with the event of the same key. -/
theorem checkPowerLevels_compared : ∃ L levels, getUserPowerLevel event.sender auth = .ok L ∧
      levelsToCheck o event.roomVersion current.content event.content = .ok levels ∧
      ∀ entry ∈ levels, checkLevel event L current.content event.content entry = .ok () := by
  obtain ⟨_, _, hok⟩ := bind_eq_ok.mp hok
  obtain ⟨_, _, hok⟩ := bind_eq_ok.mp hok
  obtain ⟨_, _, hok⟩ := bind_eq_ok.mp hok
  obtain ⟨k', hk', hok⟩ := bind_eq_ok.mp hok
  obtain rfl : k' = k := Option.some.inj ((stateKey_of_attr hk').symm.trans hkey)
  rw [hcurrent] at hok
  obtain ⟨L, hL, hok⟩ := bind_eq_ok.mp hok
  obtain ⟨levels, hlevels, hok⟩ := bind_eq_ok.mp hok
  exact ⟨L, levels, hL, hlevels, checkAll_ok_iff.mp hok⟩

variable (hL : getUserPowerLevel event.sender auth = .ok L)
include hL in
include hok hkey hcurrent in
/-- An accepted event changes a compared entry as its sender may. -/
theorem mayChange_of_checkPowerLevels (hdir : Compared event.roomVersion name dir)
    (h : dir ≠ none → HasEntry current.content dir name ∨ HasEntry event.content dir name) :
    ∃ oldLevel newLevel, entryLevel current.content dir name = .ok oldLevel ∧
      entryLevel event.content dir name = .ok newLevel ∧
      MayChange event.sender L dir name oldLevel newLevel := by
  obtain ⟨L', levels, hL', hlevels, hall⟩ := checkPowerLevels_compared hok hkey hcurrent
  obtain rfl := ok.inj (hL'.symm.trans hL)
  exact checkLevel_ok (hall _ (mem_levelsToCheck hlevels hdir h))

/-! ## The level of a user -/

variable {pl : Event} {u : String}

theorem getUserPowerLevel_users (hpl : auth powerLevelsKey = some pl)
    (hL : getUserPowerLevel u auth = .ok L) :
    ∃ users, location pl.content (some "users") = .dict users := by
  unfold getUserPowerLevel getPowerLevelEvent at hL
  rw [hpl] at hL
  obtain ⟨users, husers, _⟩ := bind_eq_ok.mp hL
  exact ⟨users, PyValue.asDict_eq_ok.mp (uncaught_eq_ok.mp husers)⟩

theorem isNone_of_toInt {v : PyValue} (h : v.toInt = .ok n) : v.isNone = false := by
  cases v with
  | none => exact absurd h (by simp [PyValue.toInt])
  | _ => rfl

variable {d : Option ℤ}

/-- A top-level level, or what stands for it if it is missing. -/
theorem toInt_getD_of_entryLevel (dflt : ℤ) (h : entryLevel content none name = .ok d) :
    (getD content name (.int dflt)).toInt = .ok (d.getD dflt) := by
  unfold getD
  rcases levelAt_dict_eq_ok h with ⟨hv, rfl⟩ | ⟨v, n, hv, hn, rfl⟩
  · rw [hv]
    rfl
  · rw [hv]
    exact hn

/-- The level of a user, from their entry and the default. -/
theorem getUserPowerLevel_eq {users : PyDict} {e d : Option ℤ}
    (hpl : auth powerLevelsKey = some pl) (husers : location pl.content (some "users") = .dict users)
    (he : entryLevel pl.content (some "users") u = .ok e)
    (hd : entryLevel pl.content none "users_default" = .ok d) :
    getUserPowerLevel u auth = .ok (e.getD (d.getD 0)) := by
  have hdefault := toInt_getD_of_entryLevel 0 hd
  unfold getUserPowerLevel getPowerLevelEvent
  rw [hpl]
  refine bind_eq_ok.mpr ⟨users, uncaught_eq_ok.mpr (PyValue.asDict_eq_ok.mpr husers), ?_⟩
  unfold entryLevel at he
  rw [husers] at he
  dsimp only
  rcases levelAt_dict_eq_ok he with ⟨hv, rfl⟩ | ⟨v, n, hv, hn, rfl⟩
  · have hget : getD users u .none = .none := by unfold getD; rw [hv]; rfl
    rw [hget, if_pos (show PyValue.none.isNone = true from rfl),
      if_neg (by rw [isNone_of_toInt hdefault]; exact Bool.false_ne_true)]
    exact uncaught_eq_ok.mpr hdefault
  · have hget : getD users u .none = v := by unfold getD; rw [hv]; rfl
    have hnone : ¬ v.isNone = true := by
      rw [isNone_of_toInt hn]
      exact Bool.false_ne_true
    rw [hget, if_neg hnone, if_neg hnone]
    exact uncaught_eq_ok.mpr hn

theorem getNamedLevel_eq (dflt : ℤ) (hpl : auth powerLevelsKey = some pl)
    (hd : entryLevel pl.content none name = .ok d) :
    getNamedLevel auth name dflt = .ok (d.getD dflt) := by
  unfold getNamedLevel getPowerLevelEvent getD
  rw [hpl]
  dsimp only
  rcases levelAt_dict_eq_ok hd with ⟨hv, rfl⟩ | ⟨v, n, hv, hn, rfl⟩
  · rw [hv]
    rfl
  · rw [hv]
    simp [isNone_of_toInt hn, uncaught, hn]

include hL in
include hok hkey hcurrent in
/-- The entry of a user changes as the sender may change it, also if there is
none. -/
theorem mayChange_user {oldUsers newUsers : PyDict}
    (hold : location current.content (some "users") = .dict oldUsers)
    (hnew : location event.content (some "users") = .dict newUsers) (u : String) :
    ∃ oldLevel newLevel, entryLevel current.content (some "users") u = .ok oldLevel ∧
      entryLevel event.content (some "users") u = .ok newLevel ∧
      MayChange event.sender L (some "users") u oldLevel newLevel := by
  have hcompared := mayChange_of_checkPowerLevels hok hkey hcurrent
    hL (show Compared event.roomVersion u (some "users") from .inl rfl)
  cases ho : oldUsers.lookup u with
  | some v => exact hcompared fun _ => .inl ⟨oldUsers, v, hold, ho⟩
  | none =>
    cases hn : newUsers.lookup u with
    | some v => exact hcompared fun _ => .inr ⟨newUsers, v, hnew, hn⟩
    | none =>
      refine ⟨none, none, ?_, ?_, .inl rfl⟩
      · rw [entryLevel, hold, levelAt_dict, ho]
        rfl
      · rw [entryLevel, hnew, levelAt_dict, hn]
        rfl

/-- The level of a user stays below the sender's and what it was. -/
theorem MayChange.level_le {sender u : String} {e e' d d' : Option ℤ}
    (he : MayChange sender L (some "users") u e e') (hd : MayChange sender L none "users_default" d d') :
    e'.getD (d'.getD 0) ≤ max (max L 0) (max (e.getD (d.getD 0)) (d.getD 0)) := by
  cases e' with
  | some n =>
    rcases he with rfl | ⟨_, hle, _⟩
    · exact le_max_of_le_right (le_max_left _ _)
    · exact le_max_of_le_left (le_max_of_le_left (hle n rfl))
  | none =>
    rcases hd with rfl | ⟨_, hle, _⟩
    · exact le_max_of_le_right (le_max_right _ _)
    · cases d' with
      | some n => exact le_max_of_le_left (le_max_of_le_left (hle n rfl))
      | none => exact le_max_of_le_left (le_max_right _ _)

/-! ## The result -/

/-- What a power levels event from a sender of level `L` leaves in place. -/
structure Restrained (event : Event) (L : ℤ) (old : PyDict) (before after : AuthState) : Prop where
  /-- Nobody gets a level above the sender's, unless they had it. -/
  users : ∀ u, ∃ oldLevel newLevel usersDefault, getUserPowerLevel u before = .ok oldLevel ∧
    getUserPowerLevel u after = .ok newLevel ∧ getNamedLevel before "users_default" 0 = .ok usersDefault ∧
    newLevel ≤ max (max L 0) (max oldLevel usersDefault)
  /-- Entries above the sender's level stay as they are. -/
  greater : ∀ dir name n, Compared event.roomVersion name dir →
    entryLevel old dir name = .ok (some n) → L < n → entryLevel event.content dir name = .ok (some n)
  /-- So do other users at the sender's level. -/
  equal : ∀ u, u ≠ event.sender → entryLevel old (some "users") u = .ok (some L) →
    entryLevel event.content (some "users") u = .ok (some L)

theorem checkPowerLevels_users (hok : checkPowerLevels o event auth = .ok ()) :
    ∃ users, location event.content (some "users") = .dict users := by
  obtain ⟨users, husers, _⟩ := bind_eq_ok.mp hok
  exact ⟨users, PyValue.asDict_eq_ok.mp (uncaught_eq_ok.mp husers)⟩

/-- A power levels event that is accepted does not escalate the power levels. -/
theorem checkStateDependentAuthRules_restrained {authEvents : List Event} {old : Event}
    (htype : event.type = EventTypes.powerLevels) (hkey : event.stateKey = some (some ""))
    (hold : authMap authEvents powerLevelsKey = some old)
    (hL : getUserPowerLevel event.sender (authMap authEvents) = .ok L)
    (hok : checkStateDependentAuthRules o verifySigned event authEvents = .ok ()) :
    Restrained event L old.content (authMap authEvents) (authMap (authEvents ++ [event])) := by
  have hstate := isState_of_checkStateDependentAuthRules (by rw [htype]; decide) hok
  rw [checkStateDependentAuthRules_eq (by rw [htype]; decide) hstate] at hok
  obtain ⟨_, hok⟩ := checkAgainst_powerLevels htype hok
  have hcurrent : authMap authEvents (event.type, some "") = some old := by rw [htype]; exact hold
  have hnew : authMap (authEvents ++ [event]) powerLevelsKey = some event := by
    rw [authMap_append hstate hkey, htype]
    exact if_pos rfl
  obtain ⟨oldUsers, holdUsers⟩ := getUserPowerLevel_users hold hL
  obtain ⟨newUsers, hnewUsers⟩ := checkPowerLevels_users hok
  -- levels of users, with their default; levels above the sender's; equal levels of others
  refine ⟨fun u => ?_, fun dir name n hdir hn hlt => ?_, fun u hne hu => ?_⟩
  · obtain ⟨e, e', he, he', hchange⟩ := mayChange_user hok hkey hcurrent hL holdUsers hnewUsers u
    obtain ⟨d, d', hd, hd', hdefault⟩ := mayChange_of_checkPowerLevels hok hkey hcurrent hL
      (show Compared event.roomVersion "users_default" none from List.mem_cons_self)
      fun h => absurd rfl h
    exact ⟨_, _, _, getUserPowerLevel_eq hold holdUsers he hd,
      getUserPowerLevel_eq hnew hnewUsers he' hd', getNamedLevel_eq 0 hold hd, hchange.level_le hdefault⟩
  · obtain ⟨e, e', he, he', hchange⟩ := mayChange_of_checkPowerLevels hok hkey hcurrent hL hdir
      fun _ => .inl (hasEntry_of_entryLevel hn)
    rw [hn] at he
    obtain rfl := ok.inj he
    rcases hchange with rfl | ⟨hle, _, _⟩
    · exact he'
    · have := hle n rfl
      omega
  · obtain ⟨e, e', he, he', hchange⟩ := mayChange_user hok hkey hcurrent hL holdUsers hnewUsers u
    rw [hu] at he
    obtain rfl := ok.inj he
    rcases hchange with rfl | ⟨_, _, hequal⟩
    · exact he'
    · exact absurd rfl (hequal rfl hne)

/-- An event of a room of version 6. -/
def roomEvent (eventId type stateKey sender : String) (content : PyDict) : Event where
  eventId := eventId
  type := type
  stateKey := some (some stateKey)
  sender := sender
  roomId := "!room:hs"
  content := content
  prevEventIds := []
  redactsField := .none
  roomVersion := .v6
  rejected := false
  signatures := ["hs"]

/-- Alice has level 100 and Bob has level 60. -/
def aliceAndBobLevels : Event := roomEvent "$levels" EventTypes.powerLevels "" "@alice:hs"
    [("users", .dict [("@alice:hs", .int 100), ("@bob:hs", .int 60)])]

/-- A room of Alice, who created it, and Bob, who may send state events. -/
def aliceAndBob : List Event :=
  [roomEvent "$create" EventTypes.create "" "@alice:hs" [("creator", .str "@alice:hs")],
   roomEvent "$alice" EventTypes.member "@alice:hs" "@alice:hs" [("membership", .str "join")],
   roomEvent "$bob" EventTypes.member "@bob:hs" "@bob:hs" [("membership", .str "join")],
   aliceAndBobLevels]

/-- Bob raises the level for kicks, and gives Carol the level that they have. -/
def bobsLevels : Event := roomEvent "$bobsLevels" EventTypes.powerLevels "" "@bob:hs"
    [("users", .dict [("@alice:hs", .int 100), ("@bob:hs", .int 60), ("@carol:hs", .int 60)]),
     ("kick", .int 60)]

theorem bobsLevels_restrained :
    checkStateDependentAuthRules .insertion (fun _ _ _ _ => .ok ()) bobsLevels aliceAndBob = .ok () ∧
      Restrained bobsLevels 60 aliceAndBobLevels.content (authMap aliceAndBob)
        (authMap (aliceAndBob ++ [bobsLevels])) := by
  have hok : checkStateDependentAuthRules .insertion (fun _ _ _ _ => .ok ()) bobsLevels aliceAndBob =
      .ok () := rfl
  exact ⟨hok, checkStateDependentAuthRules_restrained rfl rfl
    (show authMap aliceAndBob powerLevelsKey = some aliceAndBobLevels from rfl) rfl hok⟩

end Synapse.EventAuth
