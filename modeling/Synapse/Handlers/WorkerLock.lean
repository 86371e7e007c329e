import Mathlib.Algebra.Order.Ring.Rat
import Mathlib.Tactic.Linarith

/-!
# Waiting for a worker lock

`WaitingLock` and `WaitingMultiLock` of `synapse.handlers.worker_lock` try to take a lock again and
again.  After an attempt that fails they wait until they are told that the lock has been released, at
most for a time that depends on how often they have waited.  A release is announced before the row of the
lock is deleted, so the attempt that follows may come too early, and then only that time counts.

It is meant to be capped at 5 seconds.  But `max(5, next * 2)` is never below 5 seconds, and it doubles
with every wait (`retryInterval_eq`): only the first two waits are within 5.5 seconds
(`withinBound_iff`).
-/

namespace Synapse.Handlers

/-- What `WaitingLock` and `WaitingMultiLock` know about waiting, in seconds. -/
structure WaitingLock where
  retryInterval : ℚ := 1 / 10

/-- `_get_next_retry_interval`, which both have; `uniform` is what `random.uniform(0.9, 1.1)` gives. -/
def WaitingLock.getNextRetryInterval (lock : WaitingLock) (uniform : ℚ) : ℚ × WaitingLock :=
  (lock.retryInterval * uniform, ⟨max 5 (lock.retryInterval * 2)⟩)

/-- A waiter: when it first tries to take the lock, and for each wait what `random.uniform` gives and
after which time the waiter is told of a release, if it is. -/
structure Waiter where
  start : ℚ
  uniform : ℕ → ℚ
  notified : ℕ → Option ℚ
  uniform_mem : ∀ n, 9 / 10 ≤ uniform n ∧ uniform n ≤ 11 / 10

/-- `timeout_deferred`: how long the waiter waits. -/
def timeoutDeferred (timeout : ℚ) (notified : Option ℚ) : ℚ :=
  match notified with
  | none => timeout
  | some delay => min delay timeout

namespace Waiter
variable (w : Waiter) (n : ℕ)

/-- The loop of `__aenter__`: the lock object and the time of the next attempt, after so many attempts that
have failed. -/
def afterFailed : ℕ → WaitingLock × ℚ
  | 0 => ({}, w.start)
  | n + 1 =>
    let (lock, now) := afterFailed n
    let (timeout, lock) := lock.getNextRetryInterval (w.uniform n)
    (lock, now + timeoutDeferred timeout (w.notified n))

/-- The most that the waiter waits after attempt `n`, the first one being 0. -/
def timeout : ℚ := ((w.afterFailed n).1.getNextRetryInterval (w.uniform n)).1

/-- The waiter waits at most 5.5 seconds after attempt `n`; so if the row of the lock is gone some time
after that attempt, the next attempt is not later than 5.5 seconds after that. -/
def WithinBound : Prop := w.timeout n ≤ 11 / 2 ∧
    ∀ gone, (w.afterFailed n).2 < gone → (w.afterFailed (n + 1)).2 ≤ gone + 11 / 2

theorem retryInterval_eq : ∀ n, (w.afterFailed (n + 1)).1.retryInterval = 5 * 2 ^ n
  | 0 => by
    show max 5 ((1 / 10) * 2) = _
    norm_num
  | n + 1 => by
    show max 5 ((w.afterFailed (n + 1)).1.retryInterval * 2) = _
    have hpow : (1 : ℚ) ≤ 2 ^ n := one_le_pow₀ one_le_two
    rw [retryInterval_eq n, max_eq_right (by linarith), pow_succ, mul_assoc]

theorem timeout_succ : w.timeout (n + 1) = 5 * 2 ^ n * w.uniform (n + 1) := by
  rw [← retryInterval_eq]
  rfl

/-- The next attempt comes when the time is over, if not before. -/
theorem afterFailed_succ_le : (w.afterFailed (n + 1)).2 ≤ (w.afterFailed n).2 + w.timeout n := by
  show _ + timeoutDeferred (w.timeout n) (w.notified n) ≤ _
  unfold timeoutDeferred
  split
  · exact le_rfl
  · exact add_le_add_right (min_le_right _ _) _

/-- **The wait is within the bound exactly after the first two attempts.** -/
theorem withinBound_iff : w.WithinBound n ↔ n ≤ 1 := by
  constructor
  · intro h
    by_contra hn
    obtain ⟨m, rfl⟩ : ∃ m, n = m + 2 := ⟨n - 2, by omega⟩
    have htimeout := w.timeout_succ (m + 1)
    have hpow : (1 : ℚ) ≤ 2 ^ m := one_le_pow₀ one_le_two
    rw [pow_succ] at htimeout
    have := h.1
    have := (w.uniform_mem (m + 2)).1
    nlinarith
  · intro hn
    have htimeout : w.timeout n ≤ 11 / 2 := by
      have hmem := w.uniform_mem n
      match n, hn with
      | 0, _ =>
        show 1 / 10 * w.uniform 0 ≤ 11 / 2
        linarith
      | 1, _ =>
        rw [timeout_succ]
        linarith
    refine ⟨htimeout, fun gone hgone => ?_⟩
    have := w.afterFailed_succ_le n
    linarith

/-- A waiter that is never told of a release. -/
def unnotified : Waiter := ⟨0, fun _ => 1, fun _ => none, fun _ => by norm_num⟩

/-- It waits for 10 seconds after the third attempt, at 5.1 seconds.  If the row is gone at 6 seconds, the
waiter takes the lock more than 9 seconds later. -/
theorem unnotified_not_withinBound :
    unnotified.timeout 2 = 10 ∧ (unnotified.afterFailed 2).2 < 6 ∧
      6 + 9 < (unnotified.afterFailed 3).2 ∧ ¬unnotified.WithinBound 2 := by
  have htimeout : unnotified.timeout 2 = 10 := by decide +kernel
  refine ⟨htimeout, by decide +kernel, by decide +kernel, fun h => ?_⟩
  have := h.1
  rw [htimeout] at this
  norm_num at this

end Waiter
end Synapse.Handlers
