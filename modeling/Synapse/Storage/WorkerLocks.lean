import Mathlib.Algebra.Order.Group.Int
import Synapse.Util.Loops

/-!
# Worker locks

A lock is a row of `worker_locks` with the token of its holder and the time at which it was last renewed.
`try_acquire_lock` takes a row that has timed out, and a row of its own process: it relies on
`_live_lock_tokens` to know the locks of the process, and asks whether the one it knows is still valid
before.

Both can fail.  `release` removes the entry of `_live_lock_tokens` whatever lock it is of, so after the late
release of a lock that has timed out the process does not know the lock it has acquired since; and a lock
may be renewed after it was found invalid.  Then its row is taken although the lock is held.  These
schedules are the only ones in which a lock gets two holders (`exclusive_iff`).

Every statement names the lock that it is about, so this is one lock; locks have their numbers for tokens.
-/

namespace Synapse.Storage

open Synapse.Util List
open Function (update update_of_ne update_self)
open Option (all_some any_some filter_eq_some_iff filter_some some)

/-- `_LOCK_TIMEOUT_MS`. -/
def lockTimeoutMs : ℤ := 2 * 60 * 1000

/-- The row of `worker_locks`. -/
structure LockRow (ι : Type) where
  instanceName : ι
  token : ℕ
  lastRenewedTs : ℤ
deriving DecidableEq

/-- A `Lock`, with the time at which it was acquired or renewed last. -/
structure Lock (ι : Type) where
  instanceName : ι
  claimedTs : ℤ
  /-- The calls of `release` that wait for their `DELETE`. -/
  releasing : ℕ
  released : Bool
  dropped : Bool

/-- What a call of `_try_acquire_lock` waits for, with the token and the time of the row that
`is_still_valid` has read. -/
inductive Acquiring where
  /-- The `SELECT` of `is_still_valid`. -/
  | selecting (token : ℕ)
  | selected (checked : Option (ℕ × ℤ))
  | inserting (now : ℤ) (checked : Option (ℕ × ℤ))

structure LockSystem (ι : Type) where
  clock : ℤ
  workerLocks : Option (LockRow ι)
  /-- The locks that were acquired, by their tokens. -/
  locks : List (Lock ι)
  liveLockTokens : ι → Option ℕ
  acquiringLocks : ι → Option Acquiring

/-- What can happen.  A renewal has the time at which it was asked for. -/
inductive LockAction (ι : Type) where
  | tick (ms : ℕ)
  | tryAcquireLock (instanceName : ι)
  | select (instanceName : ι)
  | resume (instanceName : ι)
  | insert (instanceName : ι)
  | renew (token : ℕ) (ts : ℤ)
  | delete (token : ℕ)
  | drop (token : ℕ)

namespace LockSystem
variable {ι : Type} [DecidableEq ι]

def init : LockSystem ι := ⟨0, none, [], fun _ => none, fun _ => none⟩

variable (s : LockSystem ι)

def setAcquiring (instanceName : ι) (stage : Option Acquiring) : LockSystem ι :=
  { s with acquiringLocks := update s.acquiringLocks instanceName stage }

/-- The `WHERE` of the `DO UPDATE`, or there is no row. -/
def didLock (instanceName : ι) (now : ℤ) : Bool := s.workerLocks.all fun row =>
    row.lastRenewedTs < now - lockTimeoutMs ∨ row.instanceName = instanceName

/-- `_try_acquire_lock_txn`, and what follows if it succeeds. -/
def acquire (instanceName : ι) (now : ℤ) : LockSystem ι :=
  { s with
    workerLocks := some ⟨instanceName, s.locks.length, now⟩
    locks := s.locks ++ [⟨instanceName, now, 0, false, false⟩]
    liveLockTokens := update s.liveLockTokens instanceName (some s.locks.length) }

/-- One step: a statement of the database with the code up to the next one. -/
def step : LockAction ι → LockSystem ι
  | .tick ms => { s with clock := s.clock + ms }
  | .tryAcquireLock p =>
    match s.acquiringLocks p, s.liveLockTokens p with
    | some _, _ => s
    | none, some token => s.setAcquiring p (some (.selecting token))
    | none, none => s.setAcquiring p (some (.inserting s.clock none))
  | .select p =>
    match s.acquiringLocks p with
    | some (.selecting token) => s.setAcquiring p (some (.selected
        ((s.workerLocks.filter fun row => row.token = token).map fun row => (token, row.lastRenewedTs))))
    | _ => s
  | .resume p =>
    match s.acquiringLocks p with
    | some (.selected checked) =>
      if checked.any fun (_, lastRenewedTs) => s.clock - lockTimeoutMs < lastRenewedTs then
        s.setAcquiring p none
      else s.setAcquiring p (some (.inserting s.clock checked))
    | _ => s
  | .insert p =>
    match s.acquiringLocks p with
    | some (.inserting now _) =>
      (if s.didLock p now then s.acquire p now else s).setAcquiring p none
    | _ => s
  | .renew token ts =>
    match s.workerLocks with
    | some row =>
      if row.token = token ∧ row.lastRenewedTs ≤ ts ∧ ts ≤ s.clock then
        { s with
          workerLocks := some { row with lastRenewedTs := ts }
          locks := s.locks.modify token fun lock => { lock with claimedTs := ts } }
      else s
    | none => s
  | .delete token =>
    if (s.locks[token]?).any fun lock => !lock.dropped then
      { s with
        workerLocks := s.workerLocks.filter fun row => row.token ≠ token
        locks := s.locks.modify token fun lock =>
          { lock with releasing := lock.releasing + 1, released := true } }
    else s
  | .drop token =>
    match s.locks[token]? with
    | some lock =>
      if lock.releasing = 0 then s
      else { s with
        locks := s.locks.modify token fun lock =>
          { lock with releasing := lock.releasing - 1, dropped := true }
        liveLockTokens := update s.liveLockTokens lock.instanceName none }
    | none => s

def run (actions : List (LockAction ι)) : LockSystem ι := actions.foldl step s

/-- The lock has not been released, and was acquired or renewed within the timeout. -/
def Held (lock : Lock ι) : Prop := lock.released = false ∧ s.clock - lockTimeoutMs ≤ lock.claimedTs

/-- A lock is acquired only while no other one is held, and a release removes no other lock's claim: neither
its row nor its entry of `_live_lock_tokens`. -/
def Exclusive : LockAction ι → Prop
  | .insert p => ∀ now checked, s.acquiringLocks p = some (.inserting now checked) →
      s.didLock p now = true → ∀ lock ∈ s.locks, ¬s.Held lock
  | .delete token => ∀ row, s.workerLocks = some row → row.token ≠ token →
      (s.step (.delete token)).workerLocks = some row
  | .drop token => ∀ lock, s.locks[token]? = some lock → lock.releasing ≠ 0 →
      ∀ token', s.liveLockTokens lock.instanceName = some token' → token' = token
  | _ => True

/-- The last lock that the process has acquired. -/
def Newest (p : ι) (token : ℕ) : Prop :=
  (s.locks.map Lock.instanceName)[token]? = some p ∧
    ∀ token', (s.locks.map Lock.instanceName)[token']? = some p → token' ≤ token

/-- What has to hold of the schedule.  If `is_still_valid` has read the row of a lock that is not released,
the lock has not been renewed until the `INSERT`, or that has timed out, too; and it is not as old as the
timeout to the millisecond.  A release ends only if its process has not acquired the lock since, or has
released that one as well. -/
def Orderly : LockAction ι → Prop
  | .insert p => ∀ now token ts lock, s.acquiringLocks p = some (.inserting now (some (token, ts))) →
      s.locks[token]? = some lock → lock.released = false →
        (ts < lock.claimedTs → lock.claimedTs < s.clock - lockTimeoutMs) ∧ ts ≠ s.clock - lockTimeoutMs
  | .drop token => ∀ lock, s.locks[token]? = some lock → lock.releasing ≠ 0 →
      ∀ token', s.Newest lock.instanceName token' → token' ≠ token →
        (s.locks[token']?).any Lock.dropped = true
  | _ => True

/-- What is known of the process's locks from what `is_still_valid` has read. -/
def Checked (p : ι) : Option (ℕ × ℤ) → Prop
  | none => ∀ row lock, s.workerLocks = some row → row.instanceName = p →
      s.locks[row.token]? = some lock → lock.released = true
  | some (token, ts) => s.Newest p token ∧ ∀ lock, s.locks[token]? = some lock → ts ≤ lock.claimedTs

def StageInv (p : ι) : Acquiring → Prop
  | .selecting token => s.Newest p token
  | .selected checked => s.Checked p checked
  | .inserting now checked => s.Checked p checked ∧ now ≤ s.clock ∧
      ∀ x ∈ checked, x.2 ≤ s.clock - lockTimeoutMs

/-- What holds between two steps: the row is that of the lock that was acquired last, a lock that is held
has the row, and `_live_lock_tokens` has the newest lock of each process, unless it was dropped. -/
structure Inv (s : LockSystem ι) : Prop where
  row : ∀ row, s.workerLocks = some row → ∃ lock, s.locks[row.token]? = some lock ∧
    lock.instanceName = row.instanceName ∧ lock.claimedTs = row.lastRenewedTs ∧
    row.token + 1 = s.locks.length
  held : ∀ token lock, s.locks[token]? = some lock → s.Held lock →
    ∃ row, s.workerLocks = some row ∧ row.token = token
  released : ∀ lock ∈ s.locks, lock.dropped = true ∨ lock.releasing ≠ 0 → lock.released = true
  newest : ∀ p token, s.liveLockTokens p = some token → s.Newest p token
  live : ∀ p token lock, s.Newest p token → s.locks[token]? = some lock →
    (lock.dropped = true ↔ s.liveLockTokens p = none)
  stage : ∀ p stage, s.acquiringLocks p = some stage → s.StageInv p stage

variable {s s' : LockSystem ι} {p : ι} {token : ℕ}

section
omit [DecidableEq ι]

theorem Newest.unique {token' : ℕ} (h : s.Newest p token) (h' : s.Newest p token') : token = token' :=
  le_antisymm (h'.2 token h.1) (h.2 token' h'.1)

theorem getElem?_names {token : ℕ} : (s.locks.map Lock.instanceName)[token]? = some p ↔
    ∃ lock, s.locks[token]? = some lock ∧ lock.instanceName = p := by
  rw [getElem?_map, Option.map_eq_some_iff]

variable {row : LockRow ι} {lock : Lock ι} (h : s.Inv) (hrow : s.workerLocks = some row)
include h hrow

theorem Inv.lock_row (hlock : s.locks[row.token]? = some lock) :
    lock.instanceName = row.instanceName ∧ lock.claimedTs = row.lastRenewedTs := by
  obtain ⟨lock', hlock', hname, hclaimed, _⟩ := h.row row hrow
  obtain rfl := some.inj (hlock.symm.trans hlock')
  exact ⟨hname, hclaimed⟩

/-- The lock that has the row is the newest one of its process. -/
theorem Inv.newest_row : s.Newest row.instanceName row.token := by
  obtain ⟨lock, hlock, hname, _, hlast⟩ := h.row row hrow
  refine ⟨getElem?_names.mpr ⟨lock, hlock, hname⟩, fun token' htoken' => ?_⟩
  obtain ⟨lock', hlock', _⟩ := getElem?_names.mp htoken'
  have hlt := (List.getElem?_eq_some_iff.mp hlock').1
  omega

end

/-- What every step but an acquisition keeps. -/
structure Keeps (s s' : LockSystem ι) : Prop where
  clock : s.clock ≤ s'.clock
  names : s'.locks.map Lock.instanceName = s.locks.map Lock.instanceName
  lock : ∀ (token : ℕ) (lock' : Lock ι), s'.locks[token]? = some lock' →
    ∃ lock, s.locks[token]? = some lock ∧ lock.claimedTs ≤ lock'.claimedTs ∧
      (lock.released = true → lock'.released = true)
  row : ∀ row', s'.workerLocks = some row' → ∃ row, s.workerLocks = some row ∧
    row.token = row'.token ∧ row.instanceName = row'.instanceName

section
variable (h : s.Keeps s')
omit [DecidableEq ι]
include h

theorem Keeps.newest : s'.Newest p token ↔ s.Newest p token := by
  unfold Newest
  rw [h.names]

theorem Keeps.checked {checked : Option (ℕ × ℤ)} (hchecked : s.Checked p checked) :
    s'.Checked p checked := by
  cases checked with
  | none =>
    intro row' lock' hrow' hname hlock'
    obtain ⟨row, hrow, htoken, hname'⟩ := h.row row' hrow'
    obtain ⟨lock, hlock, _, hreleased⟩ := h.lock row'.token lock' hlock'
    exact hreleased (hchecked row lock hrow (hname'.trans hname) (htoken ▸ hlock))
  | some x =>
    refine ⟨h.newest.mpr hchecked.1, fun lock' hlock' => ?_⟩
    obtain ⟨lock, hlock, hle, _⟩ := h.lock x.1 lock' hlock'
    exact (hchecked.2 lock hlock).trans hle

theorem Keeps.stageInv {stage : Acquiring} (hstage : s.StageInv p stage) : s'.StageInv p stage := by
  cases stage with
  | selecting token => exact h.newest.mpr hstage
  | selected checked => exact h.checked hstage
  | inserting now checked =>
    refine ⟨h.checked hstage.1, hstage.2.1.trans h.clock, fun x hx => ?_⟩
    have hle := hstage.2.2 x hx
    have hclock := h.clock
    omega

end

omit [DecidableEq ι] in
/-- Locks keep their processes. -/
theorem map_modify_instanceName {f : Lock ι → Lock ι}
    (hf : ∀ lock, (f lock).instanceName = lock.instanceName) :
    (s.locks.modify token f).map Lock.instanceName = s.locks.map Lock.instanceName := by
  refine ext_getElem? fun j => ?_
  rw [getElem?_map, getElem?_modify, getElem?_map]
  cases s.locks[j]? with
  | none => rfl
  | some lock =>
    by_cases hj : token = j
    · simp [hj, hf]
    · simp [hj]

section
variable (h : s.Inv)
include h

/-- If the schedule is orderly and the row may be taken, no lock is held. -/
theorem Inv.not_held {now : ℤ} {checked : Option (ℕ × ℤ)}
    (hstage : s.acquiringLocks p = some (.inserting now checked)) (hdid : s.didLock p now = true)
    (horderly : s.Orderly (.insert p)) : ∀ lock ∈ s.locks, ¬s.Held lock := by
  intro lock hmem hheld
  obtain ⟨token, hlock⟩ := mem_iff_getElem?.mp hmem
  obtain ⟨row, hrow, rfl⟩ := h.held token lock hlock hheld
  obtain ⟨_, hts⟩ := h.lock_row hrow hlock
  obtain ⟨hchecked, hnow, hinvalid⟩ := h.stage p _ hstage
  have hfresh := hheld.2
  unfold didLock at hdid
  rw [hrow, all_some, decide_eq_true_iff] at hdid
  rcases hdid with hold | rfl
  · omega
  · -- the row is the process's own, so it is the one that `is_still_valid` was asked about
    cases checked with
    | none => exact absurd (hchecked row lock hrow rfl hlock) (by simp [hheld.1])
    | some x =>
      obtain ⟨token', ts⟩ := x
      obtain rfl := hchecked.1.unique (h.newest_row hrow)
      have hinvalid := hinvalid _ rfl
      obtain ⟨hrenewed, hne⟩ := horderly now row.token ts lock hstage hlock hheld.1
      by_cases hlt : ts < lock.claimedTs
      · omega
      · omega

omit [DecidableEq ι] in
/-- What the `SELECT` of `is_still_valid` finds. -/
theorem Inv.checked_select (hnewest : s.Newest p token) : s.Checked p
    ((s.workerLocks.filter fun row => row.token = token).map fun row => (token, row.lastRenewedTs)) := by
  cases hrow : s.workerLocks.filter fun row => row.token = token with
  | none =>
    intro row lock hrow' hname _
    -- a row of the process would be that of its newest lock
    obtain rfl := hnewest.unique (hname ▸ h.newest_row hrow')
    rw [hrow', filter_some, if_pos (decide_eq_true rfl)] at hrow
    exact nomatch hrow
  | some row =>
    obtain ⟨hrow', htoken⟩ := filter_eq_some_iff.mp hrow
    obtain rfl := of_decide_eq_true htoken
    exact ⟨hnewest, fun lock hlock => (h.lock_row hrow' hlock).2.ge⟩

theorem Inv.setAcquiring {stage : Option Acquiring}
    (hstage : ∀ stage', stage = some stage' → s.StageInv p stage') :
    (s.setAcquiring p stage).Inv := by
  refine ⟨h.row, h.held, h.released, h.newest, h.live, fun q stage' hq => ?_⟩
  replace hq : update s.acquiringLocks p stage q = _ := hq
  by_cases hqp : q = p
  · rw [hqp, update_self] at hq
    exact hqp ▸ hstage stage' hq
  · rw [update_of_ne hqp] at hq
    exact h.stage q stage' hq

theorem Inv.setAcquiring_some {stage : Acquiring} (hstage : s.StageInv p stage) :
    (s.setAcquiring p (some stage)).Inv := h.setAcquiring fun _ heq => some.inj heq ▸ hstage

theorem Inv.tick (ms : ℕ) : (s.step (.tick ms)).Inv := by
  have hkeeps : s.Keeps (s.step (.tick ms)) :=
    ⟨Int.le_add_of_nonneg_right (Int.natCast_nonneg ms), rfl, fun _ lock hlock => ⟨lock, hlock, le_rfl, id⟩,
      fun row hrow => ⟨row, hrow, rfl, rfl⟩⟩
  refine ⟨h.row, fun token lock hlock hheld => h.held token lock hlock ⟨hheld.1, ?_⟩, h.released, h.newest,
    h.live, fun p stage hstage => hkeeps.stageInv (h.stage p stage hstage)⟩
  have hclock := hkeeps.clock
  have hfresh := hheld.2
  omega

end

theorem newest_acquire_self {now : ℤ} : (s.acquire p now).Newest p s.locks.length := by
  refine ⟨getElem?_names.mpr ⟨_, getElem?_concat_length, rfl⟩, fun token' htoken' => ?_⟩
  obtain ⟨lock, hlock, _⟩ := getElem?_names.mp htoken'
  have hlt := (List.getElem?_eq_some_iff.mp hlock).1
  rw [show (s.acquire p now).locks.length = s.locks.length + 1 from length_append] at hlt
  omega

theorem newest_acquire_of_ne {now : ℤ} {q : ι} (hne : q ≠ p) :
    (s.acquire p now).Newest q token ↔ s.Newest q token := by
  have hnames : ∀ token : ℕ, ((s.acquire p now).locks.map Lock.instanceName)[token]? = some q ↔
      (s.locks.map Lock.instanceName)[token]? = some q := by
    intro token
    unfold acquire
    rw [map_append, getElem?_append]
    split
    · exact Iff.rfl
    next hge =>
      rw [List.getElem?_eq_none (l := s.locks.map Lock.instanceName) (not_lt.mp hge), map_singleton,
        getElem?_singleton]
      split
      · exact iff_of_false (fun heq => hne (some.inj heq).symm) (by simp)
      · exact Iff.rfl
  unfold Newest
  simp only [hnames]

/-- An old lock is as before, and the new one is at the end. -/
theorem getElem?_acquire {now : ℤ} {lock : Lock ι} (hlock : (s.acquire p now).locks[token]? = some lock) :
    s.locks[token]? = some lock ∨ token = s.locks.length ∧ lock = ⟨p, now, 0, false, false⟩ := by
  unfold acquire at hlock
  rw [getElem?_append] at hlock
  split at hlock
  · exact .inl hlock
  · rw [getElem?_singleton, Option.ite_none_right_eq_some] at hlock
    exact .inr ⟨by omega, (some.inj hlock.2).symm⟩

section
variable (h : s.Inv)
include h

/-- The new lock has the row, and no other one is held. -/
theorem Inv.acquire {now : ℤ} (hnone : ∀ lock ∈ s.locks, ¬s.Held lock) :
    ((s.acquire p now).setAcquiring p none).Inv := by
  refine ⟨fun row hrow => ?_, fun token lock hlock hheld => ?_, fun lock hlock hdropped => ?_,
    fun q token htoken => ?_, fun q token lock hnewest hlock => ?_, fun q stage hstage => ?_⟩
  · obtain rfl := some.inj hrow
    exact ⟨_, getElem?_concat_length, rfl, rfl, by simp [LockSystem.acquire, LockSystem.setAcquiring]⟩
  · rcases getElem?_acquire hlock with hold | ⟨rfl, _⟩
    · exact absurd hheld (hnone lock (mem_of_getElem? hold))
    · exact ⟨_, rfl, rfl⟩
  · rcases mem_append.mp hlock with hold | hnew
    · exact h.released lock hold hdropped
    · rw [mem_singleton.mp hnew] at hdropped
      exact absurd hdropped (by simp)
  · replace htoken : update s.liveLockTokens p (some s.locks.length) q = some token := htoken
    by_cases hq : q = p
    · rw [hq, update_self] at htoken
      rw [← some.inj htoken, hq]
      exact newest_acquire_self
    · rw [update_of_ne hq] at htoken
      exact (newest_acquire_of_ne hq).mpr (h.newest q token htoken)
  · show _ ↔ update s.liveLockTokens p (some s.locks.length) q = none
    by_cases hq : q = p
    · subst hq
      obtain rfl := hnewest.unique newest_acquire_self
      rcases getElem?_acquire hlock with hold | ⟨_, rfl⟩
      · rw [getElem?_eq_none le_rfl] at hold
        exact nomatch hold
      · simp
    · rw [update_of_ne hq]
      rcases getElem?_acquire hlock with hold | ⟨rfl, rfl⟩
      · exact h.live q token lock ((newest_acquire_of_ne hq).mp hnewest) hold
      · obtain ⟨lock, hlock', _⟩ := getElem?_names.mp ((newest_acquire_of_ne hq).mp hnewest).1
        rw [getElem?_eq_none le_rfl] at hlock'
        exact nomatch hlock'
  · replace hstage : update s.acquiringLocks p none q = some stage := hstage
    have hq : q ≠ p := by
      rintro rfl
      rw [update_self] at hstage
      exact nomatch hstage
    rw [update_of_ne hq] at hstage
    have hold := h.stage q stage hstage
    -- what another process has read of its own newest lock is still true
    have hchecked : ∀ checked, s.Checked q checked → (s.acquire p now).Checked q checked := by
      intro checked hc
      cases checked with
      | none =>
        intro row lock hrow hname
        obtain rfl := some.inj hrow
        exact absurd hname.symm hq
      | some x =>
        refine ⟨(newest_acquire_of_ne hq).mpr hc.1, fun lock hlock => ?_⟩
        obtain ⟨lock', hlock', _⟩ := getElem?_names.mp hc.1.1
        rcases getElem?_acquire hlock with hl | ⟨heq, _⟩
        · exact hc.2 lock hl
        · rw [heq, getElem?_eq_none le_rfl] at hlock'
          exact nomatch hlock'
    cases stage with
    | selecting token => exact (newest_acquire_of_ne hq).mpr hold
    | selected checked => exact hchecked checked hold
    | inserting now' checked => exact ⟨hchecked checked hold.1, hold.2⟩

omit [DecidableEq ι] in
/-- One lock changes, and the row and the entries of `_live_lock_tokens` with it. -/
theorem Inv.modify {f : Lock ι → Lock ι} {workerLocks : Option (LockRow ι)} {live : ι → Option ℕ}
    (hname : ∀ lock, (f lock).instanceName = lock.instanceName)
    (hf : ∀ lock, s.locks[token]? = some lock → lock.claimedTs ≤ (f lock).claimedTs ∧
      (lock.released = true → (f lock).released = true) ∧
      ((f lock).dropped = true ∨ (f lock).releasing ≠ 0 → (f lock).released = true))
    (hrow : ∀ row', workerLocks = some row' → ∃ row, s.workerLocks = some row ∧ row.token = row'.token ∧
      row.instanceName = row'.instanceName ∧ ∀ lock, s.locks[row.token]? = some lock →
        (if token = row.token then f lock else lock).claimedTs = row'.lastRenewedTs)
    (hheld : ∀ j lock, s.locks[j]? = some lock → s.Held (if token = j then f lock else lock) →
      ∃ row, workerLocks = some row ∧ row.token = j)
    (hnewest : ∀ p j, live p = some j → s.Newest p j)
    (hlive : ∀ p j lock, s.Newest p j → s.locks[j]? = some lock →
      ((if token = j then f lock else lock).dropped = true ↔ live p = none)) :
    { s with workerLocks, locks := s.locks.modify token f, liveLockTokens := live }.Inv := by
  have hlock : ∀ {j : ℕ} {lock'}, (s.locks.modify token f)[j]? = some lock' →
      ∃ lock, s.locks[j]? = some lock ∧ lock' = if token = j then f lock else lock := by
    intro j lock' hlock'
    rw [getElem?_modify] at hlock'
    obtain ⟨lock, hlock, rfl⟩ := Option.map_eq_some_iff.mp hlock'
    exact ⟨lock, hlock, rfl⟩
  have hkeeps : s.Keeps { s with workerLocks, locks := s.locks.modify token f, liveLockTokens := live } := by
    refine ⟨le_rfl, map_modify_instanceName hname, fun j lock' hlock' => ?_, fun row' hrow' => ?_⟩
    · obtain ⟨lock, hold, rfl⟩ := hlock hlock'
      refine ⟨lock, hold, ?_⟩
      split
      next hj => exact ⟨(hf lock (hj ▸ hold)).1, (hf lock (hj ▸ hold)).2.1⟩
      · exact ⟨le_rfl, id⟩
    · obtain ⟨row, hold, htoken, hinstance, _⟩ := hrow row' hrow'
      exact ⟨row, hold, htoken, hinstance⟩
  refine ⟨fun row' hrow' => ?_, fun j lock' hlock' hheld' => ?_, fun lock' hmem hdropped => ?_,
    fun p j hj => hkeeps.newest.mpr (hnewest p j hj), fun p j lock' hnewest' hlock' => ?_,
    fun p stage hstage => hkeeps.stageInv (h.stage p stage hstage)⟩
  · obtain ⟨row, hold, htoken, hinstance, hclaimed⟩ := hrow row' hrow'
    obtain ⟨lock, hlock, hname', _, hlast⟩ := h.row row hold
    rw [← htoken, ← hinstance]
    refine ⟨if token = row.token then f lock else lock, ?_, ?_, hclaimed lock hlock,
      hlast.trans (length_modify _ _ _).symm⟩
    · rw [getElem?_modify, hlock]
      rfl
    · split
      · exact (hname lock).trans hname'
      · exact hname'
  · obtain ⟨lock, hold, rfl⟩ := hlock hlock'
    exact hheld j lock hold hheld'
  · obtain ⟨j, hj⟩ := mem_iff_getElem?.mp hmem
    obtain ⟨lock, hold, rfl⟩ := hlock hj
    by_cases heq : token = j
    · rw [if_pos heq] at hdropped ⊢
      exact (hf lock (heq ▸ hold)).2.2 hdropped
    · rw [if_neg heq] at hdropped ⊢
      exact h.released lock (mem_of_getElem? hold) hdropped
  · obtain ⟨lock, hold, rfl⟩ := hlock hlock'
    exact hlive p j lock (hkeeps.newest.mp hnewest') hold

/-- A renewal finds the row only if no other lock is held. -/
theorem Inv.renew (token : ℕ) (ts : ℤ) : (s.step (.renew token ts)).Inv := by
  simp only [LockSystem.step]
  split
  next row hrow =>
    split
    next hguard =>
      obtain ⟨rfl, hts, _⟩ := hguard
      refine h.modify (fun _ => rfl) (fun lock hlock => ?_) (fun row' hrow' => ?_)
        (fun j lock hlock hheld => ⟨_, rfl, ?_⟩) h.newest (fun p j lock hnewest hlock => ?_)
      · exact ⟨(h.lock_row hrow hlock).2.trans_le hts, id, h.released lock (mem_of_getElem? hlock)⟩
      · obtain rfl := some.inj hrow'
        exact ⟨row, hrow, rfl, rfl, fun lock _ => by rw [if_pos rfl]⟩
      · by_contra hj
        rw [if_neg hj] at hheld
        obtain ⟨row', hrow', htoken⟩ := h.held j lock hlock hheld
        obtain rfl := some.inj (hrow.symm.trans hrow')
        exact hj htoken
      · split <;> exact h.live p j lock hnewest hlock
    · exact h
  · exact h

theorem Inv.delete (token : ℕ) : (s.step (.delete token)).Inv := by
  simp only [LockSystem.step]
  split
  · refine h.modify (fun _ => rfl) (fun lock _ => ⟨le_rfl, fun _ => rfl, fun _ => rfl⟩) (fun row hrow => ?_)
      (fun j lock hlock hheld => ?_) h.newest (fun p j lock hnewest hlock => ?_)
    · obtain ⟨hrow, hne⟩ := filter_eq_some_iff.mp hrow
      refine ⟨row, hrow, rfl, rfl, fun lock hlock => ?_⟩
      rw [if_neg (Ne.symm (of_decide_eq_true hne))]
      exact (h.lock_row hrow hlock).2
    · by_cases hj : token = j
      · rw [if_pos hj] at hheld
        exact absurd hheld.1 (by simp)
      · rw [if_neg hj] at hheld
        obtain ⟨row, hrow, htoken⟩ := h.held j lock hlock hheld
        exact ⟨row, filter_eq_some_iff.mpr ⟨hrow, decide_eq_true (htoken ▸ Ne.symm hj)⟩, htoken⟩
    · split <;> exact h.live p j lock hnewest hlock
  · exact h

/-- After an orderly release `_live_lock_tokens` has no entry of the process, and its newest lock is
dropped. -/
theorem Inv.drop (horderly : s.Orderly (.drop token)) : (s.step (.drop token)).Inv := by
  simp only [LockSystem.step]
  split
  next lock hlock =>
    split
    · exact h
    next hreleasing =>
      have hreleased : ∀ lock', s.locks[token]? = some lock' → lock'.released = true := by
        intro lock' hlock'
        obtain rfl := some.inj (hlock.symm.trans hlock')
        exact h.released lock (mem_of_getElem? hlock) (.inr hreleasing)
      refine h.modify (fun _ => rfl) (fun lock' hlock' => ⟨le_rfl, id, fun _ => hreleased lock' hlock'⟩)
        (fun row hrow => ⟨row, hrow, rfl, rfl, fun lock' hlock' => ?_⟩) (fun j lock' hlock' hheld => ?_)
        (fun p j hj => ?_) (fun p j lock' hnewest hlock' => ?_)
      · split <;> exact (h.lock_row hrow hlock').2
      · refine h.held j lock' hlock' ?_
        split at hheld <;> exact hheld
      · by_cases hp : p = lock.instanceName
        · rw [hp, update_self] at hj
          exact nomatch hj
        · rw [update_of_ne hp] at hj
          exact h.newest p j hj
      · by_cases hp : p = lock.instanceName
        · subst hp
          refine iff_of_true ?_ (update_self _ _ _)
          by_cases hj : token = j
          · rw [if_pos hj]
          · rw [if_neg hj]
            have hdropped := horderly lock hlock hreleasing j hnewest (Ne.symm hj)
            rwa [hlock', any_some] at hdropped
        · rw [update_of_ne hp]
          split
          next hj =>
            obtain ⟨old, hold, hname⟩ := getElem?_names.mp hnewest.1
            rw [← hj, hlock] at hold
            exact absurd (some.inj hold ▸ hname.symm) hp
          · exact h.live p j lock' hnewest hlock'
  · exact h

variable (action : LockAction ι)

theorem Inv.step (horderly : s.Orderly action) : (s.step action).Inv := by
  cases action with
  | tick ms => exact h.tick ms
  | tryAcquireLock p =>
    simp only [LockSystem.step]
    split
    · exact h
    next token _ hlive =>
      exact h.setAcquiring_some (h.newest p token hlive)
    next hlive =>
      refine h.setAcquiring_some ⟨fun row lock hrow hname hlock => ?_, le_rfl, by simp⟩
      -- the process has dropped its newest lock, which is that of the row
      have hdropped := (h.live p row.token lock (hname ▸ h.newest_row hrow) hlock).mpr hlive
      exact h.released lock (mem_of_getElem? hlock) (.inl hdropped)
  | select p =>
    simp only [LockSystem.step]
    split
    next token hstage => exact h.setAcquiring_some (h.checked_select (h.stage p _ hstage))
    · exact h
  | resume p =>
    simp only [LockSystem.step]
    split
    next checked hstage =>
      split
      · exact h.setAcquiring (by simp)
      next hvalid =>
        refine h.setAcquiring_some ⟨h.stage p _ hstage, le_rfl, fun x hx => ?_⟩
        rw [Option.mem_def.mp hx] at hvalid
        simpa using hvalid
    · exact h
  | insert p =>
    simp only [LockSystem.step]
    split
    next now checked hstage =>
      split
      next hdid => exact h.acquire (h.not_held hstage hdid horderly)
      · exact h.setAcquiring (by simp)
    · exact h
  | renew token ts => exact h.renew token ts
  | delete token => exact h.delete token
  | drop token => exact h.drop horderly

/-- A lock that was found invalid and renewed since, or is as old as the timeout, is taken. -/
theorem Inv.orderly_of_exclusive_insert (hexclusive : s.Exclusive (.insert p)) : s.Orderly (.insert p) := by
  intro now token ts lock hstage hlock hreleased
  obtain ⟨⟨hnewest, hle⟩, _, hinvalid⟩ := h.stage p _ hstage
  have hnot : ¬s.Held lock := by
    intro hheld
    obtain ⟨row, hrow, rfl⟩ := h.held token lock hlock hheld
    obtain ⟨lock', hlock', hname⟩ := getElem?_names.mp hnewest.1
    refine hexclusive now _ hstage ?_ lock (mem_of_getElem? hlock) hheld
    unfold didLock
    rw [hrow, all_some, decide_eq_true_iff]
    exact .inr ((h.lock_row hrow hlock').1.symm.trans hname)
  have hold : lock.claimedTs < s.clock - lockTimeoutMs := not_le.mp fun hfresh => hnot ⟨hreleased, hfresh⟩
  refine ⟨fun _ => hold, fun heq => ?_⟩
  have := hle lock hlock
  omega

/-- At one step the lock stays exclusive exactly if the schedule is orderly. -/
theorem Inv.exclusive_iff_orderly : s.Exclusive action ↔ s.Orderly action := by
  cases action with
  | insert p =>
    refine ⟨h.orderly_of_exclusive_insert, fun horderly now checked hstage hdid => ?_⟩
    exact h.not_held hstage hdid horderly
  | delete token =>
    refine iff_of_true (fun row hrow hne => ?_) trivial
    simp only [LockSystem.step]
    split
    · rw [hrow, filter_some, if_pos (by simpa using hne)]
    · exact hrow
  | drop token =>
    refine forall₃_congr fun lock hlock _ => ?_
    constructor
    · intro hown token' hnewest hne
      obtain ⟨lock', hlock', _⟩ := getElem?_names.mp hnewest.1
      rw [hlock', any_some, h.live _ token' lock' hnewest hlock']
      -- an entry would be that of the newest lock
      cases hlive : s.liveLockTokens lock.instanceName with
      | none => rfl
      | some token'' =>
        obtain rfl := (h.newest _ token'' hlive).unique hnewest
        exact absurd (hown token'' hlive) hne
    · intro horderly token' hlive
      by_contra hne
      have hnewest := h.newest _ token' hlive
      have hdropped := horderly token' hnewest hne
      obtain ⟨lock', hlock', _⟩ := getElem?_names.mp hnewest.1
      rw [hlock', any_some, h.live _ token' lock' hnewest hlock', hlive] at hdropped
      exact nomatch hdropped
  | _ => exact Iff.rfl

end

/-- A lock times out, its process acquires the lock anew, releases the first one, and acquires once more. -/
def lateRelease : List (LockAction Unit) :=
  [.tryAcquireLock (), .insert (), .tick 120001, .tryAcquireLock (), .select (), .resume (), .insert (),
    .delete 0, .drop 0, .tryAcquireLock (), .insert ()]

end LockSystem
end Synapse.Storage
