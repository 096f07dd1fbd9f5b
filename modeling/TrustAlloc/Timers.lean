import Mathlib.Data.Nat.Notation

/-!
# Timers and locks that release themselves

A timer is armed at a moment for an interval and may be stopped or restarted.
`timed-unlock.c` builds a lock on top of one: the lock is taken together with
the timer, and it is released by its user or by the timer. Clock values are
natural numbers, so the wrapping of the tick counter is left out.
-/

namespace TrustAlloc.Timers

/-- A timer of the operating system. -/
structure Timer where
  /-- Moment from which the interval counts. -/
  start : ℕ
  /-- Ticks until the timer expires. -/
  interval : ℕ
  /-- Whether the timer is going to expire. -/
  active : Bool
  deriving DecidableEq

/-- Arm a timer for an interval. -/
def Timer.set (now interval : ℕ) : Timer := ⟨now,interval,true⟩

/-- Stop a timer. -/
def Timer.stop (t : Timer) : Timer := {t with active := false}

/-- Arm a timer once more, for the same interval from now on. -/
def Timer.restart (now : ℕ) (t : Timer) : Timer := {t with
  start := now
  active := true}

/-- Arm a timer once more, for the same interval from the end of the last one. -/
def Timer.reset (t : Timer) : Timer := {t with
  start := t.start+t.interval
  active := true}

/-- The timer is armed and its interval is over. -/
def Timer.Expired (now : ℕ) (t : Timer) : Prop := t.active=true ∧ t.start+t.interval≤now

/-- Expiry is decided by the timer and the clock. -/
instance decidableExpired (now : ℕ) (t : Timer) : Decidable (t.Expired now) :=
  inferInstanceAs (Decidable (_ ∧ _))

/-- `timed_unlock_t`, without its name and the process it informs. -/
structure TimedUnlock where
  /-- Whether the lock is taken. -/
  locked : Bool
  /-- Ticks after which the lock is released. -/
  duration : ℕ
  /-- Timer of the lock. -/
  timer : Timer
  deriving DecidableEq

/-- `timed_unlock_init`, on zero-initialised memory. -/
def timedUnlockInit (duration : ℕ) : TimedUnlock := ⟨false,duration,⟨0,0,false⟩⟩

/-- `timed_unlock_lock`. -/
def timedUnlockLock (now : ℕ) (l : TimedUnlock) : TimedUnlock := {l with
  locked := true
  timer := .set now l.duration}

/-- `timed_unlock_unlock`. -/
def timedUnlockUnlock (l : TimedUnlock) : TimedUnlock := {l with
  locked := false
  timer := l.timer.stop}

/-- `timed_unlock_restart_timer`. -/
def timedUnlockRestartTimer (now : ℕ) (l : TimedUnlock) : TimedUnlock :=
  {l with timer := l.timer.restart now}

/-- The lock is taken exactly while its timer is armed. -/
def TimedUnlock.Coherent (l : TimedUnlock) : Prop := l.timer.active=l.locked

/-- A fresh lock is coherent. -/
theorem coherent_init (duration : ℕ) : (timedUnlockInit duration).Coherent := rfl

/-- Taking a lock makes it coherent. -/
theorem coherent_lock (now : ℕ) (l : TimedUnlock) : (timedUnlockLock now l).Coherent := rfl

/-- Releasing a lock makes it coherent. -/
theorem coherent_unlock (l : TimedUnlock) : (timedUnlockUnlock l).Coherent := rfl

/-- Restarting the timer of a taken lock keeps it coherent. -/
theorem coherent_restartTimer (now : ℕ) {l : TimedUnlock} (h : l.locked=true) :
    (timedUnlockRestartTimer now l).Coherent := h.symm

/-- Restarting the timer of a taken lock changes the lock exactly when time
has passed since the timer was last armed. -/
theorem timedUnlockRestartTimer_eq_iff (now : ℕ) {l : TimedUnlock} (h : l.Coherent)
    (hl : l.locked=true) : timedUnlockRestartTimer now l=l ↔ l.timer.start=now := by
  obtain ⟨locked,duration,⟨start,interval,active⟩⟩ := l
  obtain rfl : active=true := h.trans hl
  simp [timedUnlockRestartTimer,Timer.restart,eq_comm]

end TrustAlloc.Timers
