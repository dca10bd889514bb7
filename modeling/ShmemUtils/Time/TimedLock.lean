import ShmemUtils.Time.UnixClock
import ShmemUtils.Channel.Operations

/-!
# Locking with a deadline

`try_lock_for` and `try_lock_until` of `src/mutex.rs`, over two clocks that advance together: the
monotonic clock counts nanoseconds, and the realtime clock is ahead of it by a constant offset.
`pthread_mutex_timedlock` waits for the realtime clock. `try_lock_for` reads that clock, but
`try_lock_until` converts its deadline with the monotonic one. Deadlines are computed with overflow
checks; where such a check fails there is no lock attempt.
-/

namespace ShmemUtils.Time

open ShmemUtils.Channel ShmemUtils.Library.Monitor

variable {offset : ℤ} {held : ℕ → Bool} {until' s d fin : ℕ}

/-- `UnixClock::monitonic` at a time. -/
def monitonic (now : ℕ) : UnixClock := .ofNanos now

/-- `UnixClock::realtime` at a time. -/
def realtime (offset : ℤ) (now : ℕ) : UnixClock := .ofNanos (now + offset)

/-- The nanoseconds that `pthread` accepts. -/
def UnixClock.Normal (t : UnixClock) : Prop := 0 ≤ t.tvNsec ∧ t.tvNsec < nanosPerSec

/-- What a lock attempt ends with: the lock, `ETIMEDOUT`, or an error that is a panic. -/
inductive LockResult where
  | locked
  | timedOut
  | panicked
deriving DecidableEq, Repr

/-- `pthread_mutex_timedlock`, called at `start`, returns at `fin`. Other threads hold the mutex at
the times that `held` says. -/
inductive TimedLock (offset : ℤ) (held : ℕ → Bool) (abstime : UnixClock) (start : ℕ) :
    LockResult → ℕ → Prop where
  | locked {fin : ℕ} : start ≤ fin → held fin = false →
      TimedLock offset held abstime start .locked fin
  -- the mutex is still held once the realtime clock has reached the deadline
  | timedOut {fin : ℕ} : start ≤ fin → held fin = true → abstime.Normal →
      abstime.nanos ≤ fin + offset → TimedLock offset held abstime start .timedOut fin
  -- `EINVAL`
  | invalid {fin : ℕ} : start ≤ fin → held fin = true → ¬ abstime.Normal →
      TimedLock offset held abstime start .panicked fin

/-- `Mutex::try_lock_for`, called at `s`: a reading of the clock, and then the lock. -/
def TryLockFor (offset : ℤ) (held : ℕ → Bool) (duration s : ℕ) (r : LockResult) (fin : ℕ) : Prop :=
  ∃ now start abstime, s ≤ now ∧ now ≤ start ∧ (realtime offset now).Valid ∧
    (realtime offset now).add duration = .ok abstime ∧ TimedLock offset held abstime start r fin

/-- `Mutex::try_lock_until`, called at `s`: the two readings of `UnixClock::from`, and then the
lock. -/
def TryLockUntil (offset : ℤ) (held : ℕ → Bool) (until' s : ℕ) (r : LockResult) (fin : ℕ) : Prop :=
  ∃ stdNow now start abstime, s ≤ stdNow ∧ stdNow ≤ now ∧ now ≤ start ∧ (monitonic now).Valid ∧
    UnixClock.fromInstant until' stdNow (monitonic now) = .ok abstime ∧
    TimedLock offset held abstime start r fin

variable {α : Type}

/-- The operation locks with `try_lock_until`, and returns `r` without the lock. -/
def LocksUntil (op : Op α) (r : Ret α) : Prop :=
  ∀ grow t, op.action grow t .lock = .timedLock (.testQueue false) (.ret r)

/-- An operation called at `s` with the deadline `until'` fails to get the lock, and returns `r` at
`fin`. -/
def GivesUp (op : Op α) (offset : ℤ) (held : ℕ → Bool) (until' s : ℕ) (r : Ret α) (fin : ℕ) :
    Prop :=
  LocksUntil op r ∧ TryLockUntil offset held until' s .timedOut fin

theorem locksUntil_waitForMessageUntil :
    LocksUntil (α := α) .waitForMessageUntil (.waitForMessage (.error .timeoutReached)) :=
  fun _ _ => rfl

theorem locksUntil_tryReceiveUntil :
    LocksUntil (α := α) .tryReceiveUntil (.tryReceive (.error .timedOut)) := fun _ _ => rfl

theorem locksUntil_trySendUntil (item : α) :
    LocksUntil (.trySendUntil item) (.trySend (.error (.timedOut item))) := fun _ _ => rfl

theorem TimedLock.timedOut_cases {abstime : UnixClock} {start : ℕ}
    (h : TimedLock offset held abstime start .timedOut fin) :
    start ≤ fin ∧ abstime.nanos ≤ fin + offset := by
  cases h with
  | timedOut hstart _ _ habstime => exact ⟨hstart, habstime⟩

/-- `try_lock_for` waits for its whole duration, whatever the offset. -/
theorem TryLockFor.not_early (h : TryLockFor offset held d s .timedOut fin) : s + d ≤ fin := by
  obtain ⟨now, start, abstime, hs, -, hvalid, hadd, hlock⟩ := h
  obtain ⟨-, habstime⟩ := hlock.timedOut_cases
  cases (UnixClock.add_eq hvalid (UnixClock.room_of_add hvalid hadd)).symm.trans hadd
  rw [UnixClock.nanos_ofNanos, realtime, UnixClock.nanos_ofNanos] at habstime
  omega

/-- `try_lock_until` waits until its deadline when the realtime clock is not ahead. -/
theorem TryLockUntil.not_early (h : TryLockUntil offset held until' s .timedOut fin)
    (hoffset : offset ≤ 0 ∨ until' ≤ s) : until' ≤ fin := by
  obtain ⟨stdNow, now, start, abstime, hs, hnow, hstart, hvalid, hfrom, hlock⟩ := h
  obtain ⟨hfin, habstime⟩ := hlock.timedOut_cases
  unfold UnixClock.fromInstant at hfrom
  split at hfrom
  · cases (UnixClock.add_eq hvalid (UnixClock.room_of_add hvalid hfrom)).symm.trans hfrom
    rw [UnixClock.nanos_ofNanos, monitonic, UnixClock.nanos_ofNanos] at habstime
    omega
  · omega

/-- A deadline that is not past is what `UnixClock::from` says, if nothing happens meanwhile. -/
theorem fromInstant_monitonic (hs : s ≤ until') (hlt : until' < i64Limit * nanosPerSec) :
    UnixClock.fromInstant until' s (monitonic s) = .ok (monitonic until') := by
  have hvalid : (monitonic s).Valid :=
    UnixClock.valid_ofNanos (Int.natCast_nonneg s) (by omega)
  have hsum : (monitonic s).nanos + (until' - s : ℕ) = until' := by
    rw [monitonic, UnixClock.nanos_ofNanos]
    omega
  rw [UnixClock.fromInstant, if_pos hs, UnixClock.add_eq hvalid (by rw [hsum]; exact hlt), hsum,
    monitonic]

/-- With the realtime clock ahead, `try_lock_until` gives up before a deadline to come, if the
mutex is held. -/
theorem exists_early (hoffset : 0 < offset) (hs : s < until')
    (hlt : until' < i64Limit * nanosPerSec) :
    ∃ fin, TryLockUntil offset (fun _ => true) until' s .timedOut fin ∧ fin < until' := by
  refine ⟨max s (until' - offset).toNat, ⟨s, s, s, monitonic until', le_rfl, le_rfl, le_rfl, ?_,
    fromInstant_monitonic hs.le hlt, .timedOut (le_max_left _ _) rfl ?_ ?_⟩, ?_⟩
  · exact UnixClock.valid_ofNanos (Int.natCast_nonneg s) (by omega)
  · have hvalid : (monitonic until').Valid :=
      UnixClock.valid_ofNanos (Int.natCast_nonneg until') hlt
    exact ⟨hvalid.nsec_nonneg, hvalid.nsec_lt⟩
  · rw [monitonic, UnixClock.nanos_ofNanos]
    omega
  · omega

/-- A deadline to come is given up early in some execution exactly when the realtime clock is
ahead. -/
theorem tryLockUntil_not_early_iff (hlt : until' < i64Limit * nanosPerSec) :
    (∀ held fin, TryLockUntil offset held until' s .timedOut fin → until' ≤ fin) ↔
      offset ≤ 0 ∨ until' ≤ s := by
  constructor
  · intro hall
    by_contra hnot
    push Not at hnot
    obtain ⟨fin, hearly, hbefore⟩ := exists_early hnot.1 hnot.2 hlt
    exact absurd (hall _ fin hearly) (not_le.mpr hbefore)
  · intro hoffset held fin h
    exact h.not_early hoffset

/-- The deadlines that the two lock attempts pass on are the same when the clocks are. -/
theorem deadlines_agree_iff {now : ℕ} {abstime abstime' : UnixClock}
    (hvalid : (realtime offset now).Valid) (hlt : (now + d : ℕ) < i64Limit * nanosPerSec)
    (hfor : (realtime offset now).add d = .ok abstime)
    (hfrom : UnixClock.fromInstant (now + d) now (monitonic now) = .ok abstime') :
    abstime = abstime' ↔ offset = 0 := by
  cases (UnixClock.add_eq hvalid (UnixClock.room_of_add hvalid hfor)).symm.trans hfor
  cases (fromInstant_monitonic (Nat.le_add_right now d) hlt).symm.trans hfrom
  constructor
  · intro heq
    have hnanos := congrArg UnixClock.nanos heq
    rw [UnixClock.nanos_ofNanos, realtime, UnixClock.nanos_ofNanos, monitonic,
      UnixClock.nanos_ofNanos] at hnanos
    omega
  · intro hoffset
    subst hoffset
    rw [realtime, UnixClock.nanos_ofNanos, monitonic, add_zero]
    push_cast
    rfl

/-- **When a timed lock does not give up early**, for a realtime clock that is `offset` ahead, in a
build with overflow checks. `try_lock_for` never does. `try_lock_until`, and the operations that
lock with it, do not exactly when `offset` is not positive, or the deadline has passed. The two
agree on the deadline of the lock exactly when the clocks agree. In a release build `try_lock_for`
can give up early; `UnixClock.tryLockForRelease_not_early_iff` says when. -/
theorem timed_lock_not_early_iff (offset : ℤ) :
    (∀ held d s fin, TryLockFor offset held d s .timedOut fin → s + d ≤ fin) ∧
    (∀ until' s : ℕ, (until' : ℤ) < i64Limit * nanosPerSec →
      ((∀ held fin, TryLockUntil offset held until' s .timedOut fin → until' ≤ fin) ↔
        offset ≤ 0 ∨ until' ≤ s)) ∧
    (∀ (op : Op α) (r : Ret α) (until' s : ℕ), LocksUntil op r →
      (until' : ℤ) < i64Limit * nanosPerSec →
      ((∀ held fin, GivesUp op offset held until' s r fin → until' ≤ fin) ↔
        offset ≤ 0 ∨ until' ≤ s)) ∧
    ∀ (now d : ℕ) (abstime abstime' : UnixClock), (realtime offset now).Valid →
      (now + d : ℕ) < i64Limit * nanosPerSec →
      (realtime offset now).add d = .ok abstime →
      UnixClock.fromInstant (now + d) now (monitonic now) = .ok abstime' →
      (abstime = abstime' ↔ offset = 0) := by
  refine ⟨fun _ _ _ _ h => h.not_early, fun until' s hlt => ?_,
    fun op r until' s hop hlt => ?_, fun _ _ _ _ => deadlines_agree_iff⟩
  · exact tryLockUntil_not_early_iff hlt
  · rw [← tryLockUntil_not_early_iff hlt]
    constructor
    · intro hall held fin h
      exact hall held fin ⟨hop, h⟩
    · intro hall held fin h
      exact hall held fin h.2

/-- A realtime clock that is 5 seconds ahead: a second long attempt waits its second, a deadline
that has passed is not given up before it, and the two attempts differ. -/
theorem timed_lock_at_offset :
    (∀ fin, TryLockFor 5000000000 (fun _ => true) 1000000000 7 .timedOut fin →
      7 + 1000000000 ≤ fin) ∧
    (∀ held fin, TryLockUntil 5000000000 held 7 7 .timedOut fin → 7 ≤ fin) ∧
    (∀ held fin, GivesUp (.trySendUntil 3) 5000000000 held 7 7
      (.trySend (.error (.timedOut 3))) fin → 7 ≤ fin) ∧
    ¬ (⟨6, 7⟩ : UnixClock) = ⟨1, 7⟩ := by
  have hlt : ((7 : ℕ) : ℤ) < i64Limit * nanosPerSec := by norm_num [i64Limit, nanosPerSec]
  have hpast : (5000000000 : ℤ) ≤ 0 ∨ 7 ≤ 7 := .inr le_rfl
  obtain ⟨hfor, huntil, hgives, hagree⟩ := timed_lock_not_early_iff (α := ℕ) 5000000000
  refine ⟨fun fin => hfor _ _ _ _, (huntil _ _ hlt).mpr hpast,
    (hgives _ _ _ _ (locksUntil_trySendUntil 3) hlt).mpr hpast, ?_⟩
  rw [hagree 7 1000000000 ⟨6, 7⟩ ⟨1, 7⟩ ?_ ?_ ?_ ?_]
  · decide
  · exact ⟨by decide, by decide, by decide, by decide⟩
  · norm_num [i64Limit, nanosPerSec]
  · decide
  · decide

/-- With the realtime clock a nanosecond ahead, a deadline of 1 is given up at 0. -/
theorem tryLockUntil_early :
    ¬ ∀ (offset : ℤ) (held : ℕ → Bool) (until' s fin : ℕ),
      TryLockUntil offset held until' s .timedOut fin → until' ≤ fin := by
  intro hall
  have hoffset : (0 : ℤ) < 1 := by decide
  have hs : 0 < 1 := by decide
  obtain ⟨fin, hearly, hbefore⟩ :=
    exists_early hoffset hs (by norm_num [i64Limit, nanosPerSec])
  exact absurd (hall _ _ _ _ fin hearly) (not_le.mpr hbefore)

end ShmemUtils.Time
