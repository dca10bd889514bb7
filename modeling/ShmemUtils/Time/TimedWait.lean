import ShmemUtils.Time.ReleaseClock

/-!
# Waiting with a deadline

`wait_for` and `wait_until` of `src/condvar.rs`, and the channel operations that lock and then wait
until the same deadline. The condition variables are set to the monotonic clock. What other threads
do is left open: `ready` says what the predicate finds at each time, and a wait may be woken at any
time, notified or not.

A deadline that is past is converted by `UnixClock::sub`. Where that borrows it can leave the
nanoseconds negative (`Slips`), and `pthread_cond_timedwait` then fails with `EINVAL`. A deadline
beyond the range of the clock panics as it is computed; in a release build it wraps around.
-/

namespace ShmemUtils.Time

open ShmemUtils.Channel ShmemUtils.Library.Monitor

variable {offset : ℤ} {held ready : ℕ → Bool} {until' stdNow now start s d fin : ℕ}
  {abstime : UnixClock}

/-- What `pthread_cond_timedwait` returns. -/
inductive CondReturn where
  -- `0`: notified, or for no reason
  | woken
  -- `ETIMEDOUT`
  | timedOut
  -- `EINVAL`
  | invalid
deriving DecidableEq, Repr

/-- `pthread_cond_timedwait`, called at `start`, has the mutex again at `fin`. -/
inductive CondTimedwait (abstime : UnixClock) (start : ℕ) : CondReturn → ℕ → Prop where
  | woken {fin : ℕ} : start ≤ fin → abstime.Normal → CondTimedwait abstime start .woken fin
  | timedOut {fin : ℕ} : start ≤ fin → abstime.Normal → abstime.nanos ≤ fin →
      CondTimedwait abstime start .timedOut fin
  | invalid {fin : ℕ} : start ≤ fin → ¬ abstime.Normal → CondTimedwait abstime start .invalid fin

inductive WaitResult where
  | ready
  | timedOut
  | panicked
deriving DecidableEq, Repr

/-- The loop of `wait_until_internal`, at its head at `start`. -/
inductive WaitUntilInternal (ready : ℕ → Bool) (abstime : UnixClock) :
    ℕ → WaitResult → ℕ → Prop where
  | ready {start : ℕ} : ready start = true → WaitUntilInternal ready abstime start .ready start
  | again {start next fin : ℕ} {r : WaitResult} : ready start = false →
      CondTimedwait abstime start .woken next → WaitUntilInternal ready abstime next r fin →
      WaitUntilInternal ready abstime start r fin
  -- out of time, the predicate is tried once more
  | late {start fin : ℕ} : ready start = false → CondTimedwait abstime start .timedOut fin →
      WaitUntilInternal ready abstime start (if ready fin then .ready else .timedOut) fin
  | failed {start fin : ℕ} : ready start = false → CondTimedwait abstime start .invalid fin →
      WaitUntilInternal ready abstime start .panicked fin

/-- A deadline was computed, and is waited for from `start` on; or the computation has panicked. -/
inductive WaitWith (ready : ℕ → Bool) (start : ℕ) :
    Except ClockPanic UnixClock → WaitResult → ℕ → Prop where
  | waits {abstime : UnixClock} {r : WaitResult} {fin : ℕ} :
      WaitUntilInternal ready abstime start r fin → WaitWith ready start (.ok abstime) r fin
  | overflows {p : ClockPanic} : WaitWith ready start (.error p) .panicked start

/-- `Condvar::wait_for`: the reading of the clock at `now`, and the loop from `start` on. -/
def WaitFor (ready : ℕ → Bool) (timeout now start : ℕ) : WaitResult → ℕ → Prop :=
  WaitWith ready start ((monitonic now).add timeout)

/-- The same without overflow checks. -/
def WaitForRelease (ready : ℕ → Bool) (timeout now start : ℕ) : WaitResult → ℕ → Prop :=
  WaitWith ready start ((monitonic now).addRelease timeout)

/-- `Condvar::wait_until`: the two readings of `UnixClock::from`, and the loop from `start` on. -/
def WaitUntil (ready : ℕ → Bool) (until' stdNow now start : ℕ) : WaitResult → ℕ → Prop :=
  WaitWith ready start (UnixClock.fromInstant until' stdNow (monitonic now))

theorem waitWith_ok {r : WaitResult} :
    WaitWith ready start (.ok abstime) r fin ↔ WaitUntilInternal ready abstime start r fin :=
  ⟨fun | .waits h => h, .waits⟩

/-! ## The outcomes of the loop -/

namespace WaitUntilInternal

/-- The predicate held already, or the wait ended later than it began. -/
theorem ready_iff : WaitUntilInternal ready abstime start .ready fin ↔
    ready fin = true ∧ (fin = start ∨ start ≤ fin ∧ ready start = false ∧ abstime.Normal) := by
  constructor
  · intro h
    generalize hr : WaitResult.ready = r at h
    induction h with
    | ready hready => exact ⟨hready, Or.inl rfl⟩
    | @again start next fin r hnot hwait _ ih =>
      obtain ⟨hfin, hlater⟩ := ih hr
      cases hwait with
      | woken hnext hnormal =>
        refine ⟨hfin, Or.inr ⟨?_, hnot, hnormal⟩⟩
        rcases hlater with rfl | ⟨hle, -⟩
        · exact hnext
        · exact hnext.trans hle
    | @late start fin hnot hwait =>
      cases hwait with
      | timedOut hstart hnormal _ =>
        refine ⟨?_, Or.inr ⟨hstart, hnot, hnormal⟩⟩
        by_contra hfin
        rw [if_neg hfin] at hr
        cases hr
    | failed => cases hr
  · rintro ⟨hfin, rfl | ⟨hle, hnot, hnormal⟩⟩
    · exact .ready hfin
    · exact .again hnot (.woken hle hnormal) (.ready hfin)

/-- The predicate did not hold, and does not hold now that the deadline has passed. -/
theorem timedOut_iff : WaitUntilInternal ready abstime start .timedOut fin ↔
    ready fin = false ∧ start ≤ fin ∧ abstime.nanos ≤ fin ∧ ready start = false ∧
      abstime.Normal := by
  constructor
  · intro h
    generalize hr : WaitResult.timedOut = r at h
    induction h with
    | ready => cases hr
    | @again start next fin r hnot hwait _ ih =>
      obtain ⟨hfin, hle, hdeadline, -, hnormal⟩ := ih hr
      cases hwait with
      | woken hnext _ => exact ⟨hfin, hnext.trans hle, hdeadline, hnot, hnormal⟩
    | @late start fin hnot hwait =>
      cases hwait with
      | timedOut hstart hnormal hdeadline =>
        refine ⟨?_, hstart, hdeadline, hnot, hnormal⟩
        by_contra hfin
        rw [if_pos (by simpa using hfin)] at hr
        cases hr
    | failed => cases hr
  · rintro ⟨hfin, hle, hdeadline, hnot, hnormal⟩
    have hlate := late hnot (.timedOut hle hnormal hdeadline)
    rwa [hfin] at hlate

/-- The predicate did not hold, and the deadline is not one that the wait accepts. -/
theorem panicked_iff : WaitUntilInternal ready abstime start .panicked fin ↔
    start ≤ fin ∧ ready start = false ∧ ¬ abstime.Normal := by
  constructor
  · intro h
    generalize hr : WaitResult.panicked = r at h
    induction h with
    | ready => cases hr
    | again _ hwait _ ih =>
      -- whoever was woken had passed a deadline that is accepted
      cases hwait with
      | woken _ hnormal => exact absurd hnormal (ih hr).2.2
    | late => split at hr <;> cases hr
    | failed hnot hwait =>
      cases hwait with
      | invalid hstart hinvalid => exact ⟨hstart, hnot, hinvalid⟩
  · rintro ⟨hle, hnot, hinvalid⟩
    exact .failed hnot (.invalid hle hinvalid)

end WaitUntilInternal

/-! ## The deadlines -/

/-- The deadline is past when it is converted, and the subtraction borrows and leaves the
nanoseconds negative. -/
def Slips (until' stdNow now : ℕ) : Prop :=
  until' < stdNow ∧ now % nanosPerSec ≤ (stdNow - until') % nanosPerSec ∧
    now % nanosPerSec + (stdNow - until') % nanosPerSec < nanosPerSec

instance (until' stdNow now : ℕ) : Decidable (Slips until' stdNow now) :=
  inferInstanceAs (Decidable (_ ∧ _))

/-- The deadline of `wait_for` is the one that was asked for. -/
theorem add_deadline (hvalid : (monitonic now).Valid)
    (hroom : ((now + d : ℕ) : ℤ) < i64Limit * nanosPerSec) :
    (monitonic now).add d = .ok (monitonic (now + d)) := by
  have hsum : (monitonic now).nanos + d = (now + d : ℕ) := by
    rw [monitonic, UnixClock.nanos_ofNanos, Nat.cast_add]
  rw [UnixClock.add_eq hvalid (by rw [hsum]; exact hroom), hsum, monitonic]

/-- The deadline of `wait_until` is accepted unless the conversion slips, and it is then late by
what has passed between the two readings. -/
theorem fromInstant_deadline (hstd : stdNow ≤ now) (hvalid : (monitonic now).Valid)
    (hroom : ((now + (until' - stdNow) : ℕ) : ℤ) < i64Limit * nanosPerSec) :
    ∃ abstime, UnixClock.fromInstant until' stdNow (monitonic now) = .ok abstime ∧
      (abstime.Normal ↔ ¬ Slips until' stdNow now) ∧
      ∀ fin, now ≤ fin → (abstime.nanos ≤ fin ↔ until' + (now - stdNow) ≤ fin) := by
  unfold UnixClock.fromInstant
  by_cases hfuture : stdNow ≤ until'
  · rw [if_pos hfuture, add_deadline hvalid hroom]
    refine ⟨_, rfl, iff_of_true (UnixClock.normal_ofNanos _) fun h => ?_, fun fin hfin => ?_⟩
    · exact absurd h.1 (not_lt.mpr hfuture)
    · rw [monitonic, UnixClock.nanos_ofNanos]
      omega
  · rw [if_neg hfuture]
    have hd : ((stdNow - until' : ℕ) : ℤ) ≤ (monitonic now).nanos := by
      rw [monitonic, UnixClock.nanos_ofNanos]
      omega
    rw [UnixClock.sub_eq hvalid hd]
    refine ⟨_, rfl, ?_, fun fin hfin => ?_⟩
    · unfold Slips UnixClock.Normal monitonic UnixClock.ofNanos nanosPerSec
      split <;> dsimp only at * <;> omega
    · -- having borrowed it may be too early, but either way it has passed
      unfold UnixClock.nanos monitonic UnixClock.ofNanos nanosPerSec
      split <;> dsimp only at * <;> omega

/-- A conversion that succeeds had the room for its deadline. -/
theorem room_of_fromInstant (hvalid : (monitonic now).Valid)
    (h : UnixClock.fromInstant until' stdNow (monitonic now) = .ok abstime) :
    ((now + (until' - stdNow) : ℕ) : ℤ) < i64Limit * nanosPerSec := by
  unfold UnixClock.fromInstant at h
  split at h
  · have hroom := UnixClock.room_of_add hvalid h
    rw [monitonic, UnixClock.nanos_ofNanos] at hroom
    push_cast
    exact hroom
  · next hpast =>
    rw [Nat.sub_eq_zero_of_le (not_le.mp hpast).le, add_zero, ← UnixClock.nanos_ofNanos now]
    exact UnixClock.nanos_lt_limit hvalid

theorem error_of_not_lt {n : ℤ} {r : Except ClockPanic UnixClock}
    (hok : ∀ abstime, r = .ok abstime → n < i64Limit * nanosPerSec)
    (hn : i64Limit * nanosPerSec ≤ n) : ∃ p, r = .error p := by
  cases r with
  | ok abstime => exact absurd (hok abstime rfl) (not_lt.mpr hn)
  | error p => exact ⟨p, rfl⟩

/-- Without the room for it the deadline of `wait_for` is a panic. -/
theorem add_overflows (hvalid : (monitonic now).Valid)
    (hbeyond : i64Limit * nanosPerSec ≤ ((now + d : ℕ) : ℤ)) :
    ∃ p, (monitonic now).add d = .error p := by
  refine error_of_not_lt (fun abstime h => ?_) hbeyond
  have hroom := UnixClock.room_of_add hvalid h
  rw [monitonic, UnixClock.nanos_ofNanos] at hroom
  exact_mod_cast hroom

/-! ## What a wait comes to -/

/-- A wait that begins at `start` comes to exactly this. It is ready when the predicate held at
once, or when it holds later and the deadline was accepted; it has timed out when the deadline has
passed and the predicate does not hold; and it panics when the deadline was not accepted. -/
structure ComesTo (wait : WaitResult → ℕ → Prop) (ready : ℕ → Bool) (start deadline : ℕ)
    (accepted : Prop) : Prop where
  ready_iff (fin : ℕ) : wait .ready fin ↔
    ready fin = true ∧ (fin = start ∨ start ≤ fin ∧ ready start = false ∧ accepted)
  timedOut_iff (fin : ℕ) : wait .timedOut fin ↔
    ready fin = false ∧ start ≤ fin ∧ deadline ≤ fin ∧ ready start = false ∧ accepted
  panicked_iff (fin : ℕ) : wait .panicked fin ↔
    start ≤ fin ∧ ready start = false ∧ ¬ accepted

/-- The wait panics as it computes its deadline, and does nothing else. -/
def PanicsAtOnce (wait : WaitResult → ℕ → Prop) (start : ℕ) : Prop :=
  ∀ r fin, wait r fin ↔ r = .panicked ∧ fin = start

theorem panicsAtOnce (ready : ℕ → Bool) (start : ℕ) (p : ClockPanic) :
    PanicsAtOnce (WaitWith ready start (.error p)) start := by
  intro r fin
  constructor
  · rintro ⟨⟩
    exact ⟨rfl, rfl⟩
  · rintro ⟨rfl, rfl⟩
    exact .overflows

/-- With a deadline in normal form it is only its point in time that matters. -/
theorem comesTo_of_normal (ready : ℕ → Bool) (start deadline : ℕ) (hnormal : abstime.Normal)
    (hnanos : ∀ fin : ℕ, abstime.nanos ≤ fin ↔ deadline ≤ fin) :
    ComesTo (WaitWith ready start (.ok abstime)) ready start deadline True := by
  constructor <;> intro fin <;> rw [waitWith_ok]
  · simp [WaitUntilInternal.ready_iff, hnormal]
  · simp [WaitUntilInternal.timedOut_iff, hnormal, hnanos]
  · simp [WaitUntilInternal.panicked_iff, hnormal]

theorem comesTo_monitonic (ready : ℕ → Bool) (start deadline : ℕ) :
    ComesTo (WaitWith ready start (.ok (monitonic deadline))) ready start deadline True := by
  refine comesTo_of_normal ready start deadline (UnixClock.normal_ofNanos _) fun fin => ?_
  rw [monitonic, UnixClock.nanos_ofNanos, Nat.cast_le]

theorem WaitFor.comesTo (ready : ℕ → Bool) (hvalid : (monitonic now).Valid)
    (hroom : ((now + d : ℕ) : ℤ) < i64Limit * nanosPerSec) :
    ComesTo (WaitFor ready d now start) ready start (now + d) True := by
  rw [WaitFor, add_deadline hvalid hroom]
  exact comesTo_monitonic ready start (now + d)

theorem WaitFor.panicsAtOnce (ready : ℕ → Bool) (hvalid : (monitonic now).Valid)
    (hbeyond : i64Limit * nanosPerSec ≤ ((now + d : ℕ) : ℤ)) :
    PanicsAtOnce (WaitFor ready d now start) start := by
  obtain ⟨p, hp⟩ := add_overflows hvalid hbeyond
  rw [WaitFor, hp]
  exact Time.panicsAtOnce ready start p

/-- Where the checked build does not panic, the release build waits for the same deadline. -/
theorem WaitForRelease.comesTo (ready : ℕ → Bool) (hvalid : (monitonic now).Valid)
    (hroom : ((now + d : ℕ) : ℤ) < i64Limit * nanosPerSec) :
    ComesTo (WaitForRelease ready d now start) ready start (now + d) True := by
  rw [WaitForRelease, (UnixClock.addRelease_of_add hvalid (add_deadline hvalid hroom)).2]
  exact comesTo_monitonic ready start (now + d)

theorem WaitForRelease.panicsAtOnce (ready : ℕ → Bool)
    (hd : i64Limit ≤ (d / nanosPerSec : ℕ)) :
    PanicsAtOnce (WaitForRelease ready d now start) start := by
  rw [WaitForRelease, UnixClock.addRelease_tooLarge hd]
  exact Time.panicsAtOnce ready start .tooLarge

/-- A deadline that wraps around has always passed. -/
theorem WaitForRelease.comesTo_zero (ready : ℕ → Bool) (hvalid : (monitonic now).Valid)
    (hd : ((d / nanosPerSec : ℕ) : ℤ) < i64Limit)
    (hbeyond : i64Limit * nanosPerSec ≤ ((now + d : ℕ) : ℤ)) :
    ComesTo (WaitForRelease ready d now start) ready start 0 True := by
  have hfits : ¬ UnixClock.Fits (monitonic now) d := by
    rintro (hlarge | hroom)
    · exact absurd hd (not_lt.mpr hlarge)
    · rw [monitonic, UnixClock.nanos_ofNanos] at hroom
      push_cast at hbeyond
      omega
  obtain ⟨abstime, hadd, hnormal, hneg⟩ := UnixClock.addRelease_of_not_fits hvalid hfits
  rw [WaitForRelease, hadd]
  refine comesTo_of_normal ready start 0 hnormal fun fin => ?_
  exact iff_of_true (hneg.le.trans (Int.natCast_nonneg fin)) (Nat.zero_le fin)

theorem WaitUntil.comesTo (ready : ℕ → Bool) (hstd : stdNow ≤ now) (hstart : now ≤ start)
    (hvalid : (monitonic now).Valid)
    (hroom : ((now + (until' - stdNow) : ℕ) : ℤ) < i64Limit * nanosPerSec) :
    ComesTo (WaitUntil ready until' stdNow now start) ready start (until' + (now - stdNow))
      (¬ Slips until' stdNow now) := by
  obtain ⟨abstime, hfrom, hnormal, hnanos⟩ := fromInstant_deadline hstd hvalid hroom
  rw [WaitUntil, hfrom]
  constructor <;> intro fin <;> rw [waitWith_ok]
  · rw [WaitUntilInternal.ready_iff, hnormal]
  · rw [WaitUntilInternal.timedOut_iff, hnormal]
    constructor
    · rintro ⟨hready, hfin, hdeadline, hrest⟩
      exact ⟨hready, hfin, (hnanos fin (hstart.trans hfin)).mp hdeadline, hrest⟩
    · rintro ⟨hready, hfin, hdeadline, hrest⟩
      exact ⟨hready, hfin, (hnanos fin (hstart.trans hfin)).mpr hdeadline, hrest⟩
  · rw [WaitUntilInternal.panicked_iff, hnormal]

theorem WaitUntil.panicsAtOnce (ready : ℕ → Bool) (hvalid : (monitonic now).Valid)
    (hbeyond : i64Limit * nanosPerSec ≤ ((now + (until' - stdNow) : ℕ) : ℤ)) :
    PanicsAtOnce (WaitUntil ready until' stdNow now start) start := by
  obtain ⟨p, hp⟩ := error_of_not_lt (fun _ => room_of_fromInstant hvalid) hbeyond
  rw [WaitUntil, hp]
  exact Time.panicsAtOnce ready start p

/-- **What the timed waits come to**, in every execution. With overflow checks `wait_for` waits for
its whole duration and does not panic, unless its end is beyond the range of the clock, where it
panics at once. `wait_until` reports a time-out from its deadline on, later by what has passed
between its two readings of the clock; exactly when the conversion of a past deadline slips, it
panics instead of waiting or reporting a time-out, and it panics at once where the conversion of a
deadline overflows. In a release build `wait_for` panics at once exactly when the seconds of its
duration do not fit an `i64`; any other end beyond the range wraps around, and the wait is out of
time from the start. `try_lock_for` gives up early there exactly when its deadline wraps. -/
theorem timed_waits_come_to (ready : ℕ → Bool) {now start : ℕ} (hvalid : (monitonic now).Valid)
    (hstart : now ≤ start) :
    (∀ d : ℕ,
      (((now + d : ℕ) : ℤ) < i64Limit * nanosPerSec →
        ComesTo (WaitFor ready d now start) ready start (now + d) True ∧
        ComesTo (WaitForRelease ready d now start) ready start (now + d) True) ∧
      (i64Limit * nanosPerSec ≤ ((now + d : ℕ) : ℤ) →
        PanicsAtOnce (WaitFor ready d now start) start ∧
        (i64Limit ≤ (d / nanosPerSec : ℕ) →
          PanicsAtOnce (WaitForRelease ready d now start) start) ∧
        (((d / nanosPerSec : ℕ) : ℤ) < i64Limit →
          ComesTo (WaitForRelease ready d now start) ready start 0 True))) ∧
    (∀ until' stdNow : ℕ, stdNow ≤ now →
      (((now + (until' - stdNow) : ℕ) : ℤ) < i64Limit * nanosPerSec →
        ComesTo (WaitUntil ready until' stdNow now start) ready start (until' + (now - stdNow))
          (¬ Slips until' stdNow now)) ∧
      (i64Limit * nanosPerSec ≤ ((now + (until' - stdNow) : ℕ) : ℤ) →
        PanicsAtOnce (WaitUntil ready until' stdNow now start) start)) ∧
    ∀ (offset : ℤ) (d : ℕ), (realtime offset now).Valid →
      ((∀ held fin, UnixClock.TryLockForRelease offset held d now .timedOut fin → now + d ≤ fin) ↔
        (realtime offset now).Fits d) := by
  refine ⟨fun d => ⟨fun hroom => ?_, fun hbeyond => ?_⟩, fun until' stdNow hstd => ⟨?_, ?_⟩,
    fun _ _ => UnixClock.tryLockForRelease_not_early_iff⟩
  · exact ⟨WaitFor.comesTo ready hvalid hroom, WaitForRelease.comesTo ready hvalid hroom⟩
  · exact ⟨WaitFor.panicsAtOnce ready hvalid hbeyond, WaitForRelease.panicsAtOnce ready,
      fun hd => WaitForRelease.comesTo_zero ready hvalid hd hbeyond⟩
  · exact WaitUntil.comesTo ready hstd hstart hvalid
  · exact WaitUntil.panicsAtOnce ready hvalid

/-- A deadline 0.4 seconds past at 2.3 seconds panics, and one 0.9 seconds past is accepted. A wait
for the greatest `i64` of seconds panics, and in a release build it is out of time at once. -/
theorem timed_waits_at :
    WaitUntil (fun _ => false) 1900000000 2300000000 2300000000 2300000001 .panicked 2300000002 ∧
    WaitUntil (fun _ => false) 1400000000 2300000000 2300000000 2300000001 .timedOut
      2300000002 ∧
    WaitFor (fun _ => false) ((2 ^ 63 - 1) * nanosPerSec) 2300000000 2300000001 .panicked
      2300000001 ∧
    WaitForRelease (fun _ => false) ((2 ^ 63 - 1) * nanosPerSec) 2300000000 2300000001 .timedOut
      2300000001 := by
  have hvalid : (monitonic 2300000000).Valid :=
    UnixClock.valid_ofNanos (by norm_num) (by norm_num [i64Limit, nanosPerSec])
  have hstart : 2300000000 ≤ 2300000001 := by norm_num
  obtain ⟨hfor, huntil, -⟩ := timed_waits_come_to (fun _ => false) hvalid hstart
  obtain ⟨-, hbeyond⟩ := hfor ((2 ^ 63 - 1) * nanosPerSec)
  obtain ⟨hpanics, -, hwraps⟩ := hbeyond (by norm_num [i64Limit, nanosPerSec])
  refine ⟨?_, ?_, (hpanics _ _).mpr ⟨rfl, rfl⟩, ?_⟩
  · rw [((huntil _ _ le_rfl).1 (by norm_num [i64Limit, nanosPerSec])).panicked_iff]
    exact ⟨by norm_num, rfl, by decide⟩
  · rw [((huntil _ _ le_rfl).1 (by norm_num [i64Limit, nanosPerSec])).timedOut_iff]
    exact ⟨rfl, by norm_num, by norm_num, rfl, by decide⟩
  · rw [(hwraps (by norm_num [i64Limit, nanosPerSec])).timedOut_iff]
    exact ⟨rfl, le_rfl, Nat.zero_le _, rfl, trivial⟩

/-! ## Operations with a deadline -/

section Operations

variable {α : Type}

/-- In the channel's program the operation locks with its deadline and sleeps with it, and returns
`r` when it runs out of time there. -/
structure WithDeadline (op : Op α) (r : Ret α) : Prop where
  locks : LocksUntil op r
  sleeps : ∀ grow t,
    op.action grow t .sleep = .wait op.side (.testQueue false) (some (.testQueue true))
  expires : ∀ grow t, op.action grow t (.testDropping true) =
    read fun inner => if inner.dropping then op.resume else .unlock r

theorem LocksUntil.withDeadline {op : Op α} {r : Ret α} (h : LocksUntil op r) :
    WithDeadline op r := by
  have hlock := h (fun _ => none) ⟨0, 0⟩
  cases op <;> cases hlock <;> exact ⟨h, fun _ _ => rfl, fun _ _ => rfl⟩

/-- The operations with a deadline are those whose names say so. -/
theorem withDeadline_iff {op : Op α} {r : Ret α} :
    WithDeadline op r ↔
      op = .waitForMessageUntil ∧ r = .waitForMessage (.error .timeoutReached) ∨
      op = .tryReceiveUntil ∧ r = .tryReceive (.error .timedOut) ∨
      ∃ item, op = .trySendUntil item ∧ r = .trySend (.error (.timedOut item)) := by
  constructor
  · rintro ⟨hlocks, -, -⟩
    have hlock := hlocks (fun _ => none) ⟨0, 0⟩
    cases op <;> cases hlock
    · exact Or.inr (Or.inl ⟨rfl, rfl⟩)
    · exact Or.inl ⟨rfl, rfl⟩
    · exact Or.inr (Or.inr ⟨_, rfl, rfl⟩)
  · rintro (⟨rfl, rfl⟩ | ⟨rfl, rfl⟩ | ⟨item, rfl, rfl⟩)
    · exact locksUntil_waitForMessageUntil.withDeadline
    · exact locksUntil_tryReceiveUntil.withDeadline
    · exact (locksUntil_trySendUntil item).withDeadline

inductive AttemptResult (α : Type) where
  -- goes on with the lock
  | proceeds
  | returns (r : Ret α)
  | panicked
deriving DecidableEq

/-- An operation with the deadline `until'`, called at `s`: it locks the mutex with the deadline,
and then waits with the same deadline, converted anew. -/
inductive Attempt (op : Op α) (offset : ℤ) (held ready : ℕ → Bool) (until' s : ℕ) :
    AttemptResult α → ℕ → Prop where
  -- the conversion in front of the lock panics
  | lockOverflows {stdNow now fin : ℕ} {p : ClockPanic} : s ≤ stdNow → stdNow ≤ now → now ≤ fin →
      (monitonic now).Valid → UnixClock.fromInstant until' stdNow (monitonic now) = .error p →
      Attempt op offset held ready until' s .panicked fin
  | lockTimedOut {r : Ret α} {fin : ℕ} : WithDeadline op r →
      TryLockUntil offset held until' s .timedOut fin →
      Attempt op offset held ready until' s (.returns r) fin
  | lockPanicked {fin : ℕ} : TryLockUntil offset held until' s .panicked fin →
      Attempt op offset held ready until' s .panicked fin
  | ready {locked stdNow now start fin : ℕ} : TryLockUntil offset held until' s .locked locked →
      locked ≤ stdNow → stdNow ≤ now → now ≤ start → (monitonic now).Valid →
      WaitUntil ready until' stdNow now start .ready fin →
      Attempt op offset held ready until' s .proceeds fin
  | timedOut {locked stdNow now start fin : ℕ} {r : Ret α} :
      TryLockUntil offset held until' s .locked locked → locked ≤ stdNow → stdNow ≤ now →
      now ≤ start → (monitonic now).Valid → WithDeadline op r →
      WaitUntil ready until' stdNow now start .timedOut fin →
      Attempt op offset held ready until' s (.returns r) fin
  | panicked {locked stdNow now start fin : ℕ} : TryLockUntil offset held until' s .locked locked →
      locked ≤ stdNow → stdNow ≤ now → now ≤ start → (monitonic now).Valid →
      WaitUntil ready until' stdNow now start .panicked fin →
      Attempt op offset held ready until' s .panicked fin

/-- `wait_for_message_timeout` and the others: a reading of the clock, and then the deadline. Where
the clock has no room for it, `Instant::now() + timeout` panics. -/
inductive AttemptFor (op : Op α) (offset : ℤ) (held ready : ℕ → Bool) (timeout s : ℕ) :
    AttemptResult α → ℕ → Prop where
  | attempts {now fin : ℕ} {result : AttemptResult α} : s ≤ now →
      ((now + timeout : ℕ) : ℤ) < i64Limit * nanosPerSec →
      Attempt op offset held ready (now + timeout) now result fin →
      AttemptFor op offset held ready timeout s result fin
  | overflows {now fin : ℕ} : s ≤ now → now ≤ fin →
      i64Limit * nanosPerSec ≤ ((now + timeout : ℕ) : ℤ) →
      AttemptFor op offset held ready timeout s .panicked fin

variable {op : Op α} {result : AttemptResult α}

theorem WaitUntil.comesTo_of {r : WaitResult} (h : WaitUntil ready until' stdNow now start r fin)
    (hr : r ≠ .panicked) (hstd : stdNow ≤ now) (hstart : now ≤ start)
    (hvalid : (monitonic now).Valid) :
    ComesTo (WaitUntil ready until' stdNow now start) ready start (until' + (now - stdNow))
      (¬ Slips until' stdNow now) := by
  by_cases hroom : ((now + (until' - stdNow) : ℕ) : ℤ) < i64Limit * nanosPerSec
  · exact WaitUntil.comesTo ready hstd hstart hvalid hroom
  · exact absurd ((WaitUntil.panicsAtOnce ready hvalid (not_lt.mp hroom) r fin).mp h).1 hr

/-- A lock attempt that comes about has a deadline in the range of the clock. -/
theorem TryLockUntil.until_lt {r : LockResult} (h : TryLockUntil offset held until' s r fin) :
    (until' : ℤ) < i64Limit * nanosPerSec := by
  obtain ⟨stdNow, now, start, abstime, -, hstd, -, hvalid, hfrom, -⟩ := h
  have hroom := room_of_fromInstant hvalid hfrom
  omega

theorem TryLockUntil.held_of_timedOut (h : TryLockUntil offset held until' s .timedOut fin) :
    held fin = true := by
  obtain ⟨_, _, _, _, _, _, _, _, _, hlock⟩ := h
  cases hlock with
  | timedOut _ hheld _ _ => exact hheld

/-- A lock attempt panics after its deadline, and while the mutex is held. -/
theorem TryLockUntil.panicked_late (h : TryLockUntil offset held until' s .panicked fin) :
    until' < fin ∧ held fin = true := by
  obtain ⟨stdNow, now, start, abstime, -, hstd, hnow, hvalid, hfrom, hlock⟩ := h
  obtain ⟨abstime', hfrom', hnormal, -⟩ :=
    fromInstant_deadline hstd hvalid (room_of_fromInstant hvalid hfrom)
  cases hfrom.symm.trans hfrom'
  cases hlock with
  | invalid hfin hheld hinvalid =>
    have hslips : Slips until' stdNow now := by
      rwa [hnormal, not_not] at hinvalid
    exact ⟨lt_of_lt_of_le hslips.1 (by omega), hheld⟩

theorem TryLockUntil.le_of_locked (h : TryLockUntil offset held until' s .locked fin) :
    s ≤ fin := by
  obtain ⟨stdNow, now, start, abstime, hs, hstd, hnow, -, -, hlock⟩ := h
  cases hlock with
  | locked hfin _ => omega

/-- The deadline is so near the end of the clock's range that the time that has passed since `s`
leads out of it. -/
def Overflows (deadline s fin : ℕ) : Prop :=
  i64Limit * nanosPerSec + s ≤ (deadline + fin : ℕ)

/-- A conversion overflows only for a deadline that has passed or is at the end of the range. -/
theorem overflows_of_room (hs : s ≤ stdNow) (hstd : stdNow ≤ now) (hfin : now ≤ fin)
    (hbeyond : i64Limit * nanosPerSec ≤ ((now + (until' - stdNow) : ℕ) : ℤ)) :
    until' < fin ∨ Overflows until' s fin := by
  unfold Overflows
  omega

/-- A wait panics after its deadline, or for one at the end of the range. -/
theorem WaitUntil.panicked_cases (h : WaitUntil ready until' stdNow now start .panicked fin)
    (hs : s ≤ stdNow) (hstd : stdNow ≤ now) (hstart : now ≤ start)
    (hvalid : (monitonic now).Valid) : until' < fin ∨ Overflows until' s fin := by
  by_cases hroom : ((now + (until' - stdNow) : ℕ) : ℤ) < i64Limit * nanosPerSec
  · have hcomes := WaitUntil.comesTo ready hstd hstart hvalid hroom
    obtain ⟨hfin, -, hslips⟩ := (hcomes.panicked_iff fin).mp h
    rw [not_not] at hslips
    exact Or.inl (lt_of_lt_of_le hslips.1 (by omega))
  · obtain ⟨-, rfl⟩ := (WaitUntil.panicsAtOnce ready hvalid (not_lt.mp hroom) _ _).mp h
    exact overflows_of_room hs hstd hstart (not_lt.mp hroom)

/-- The result is true, and no earlier than the deadline allows: going on means that the predicate
holds; the error means that it does not and the deadline has passed, or that the mutex is held, and
then the deadline has passed unless the realtime clock is ahead; and a panic comes after the
deadline, or for a deadline at the end of the clock's range. Beyond the range there is nothing but
the panic. -/
structure Keeps (op : Op α) (offset : ℤ) (held ready : ℕ → Bool) (deadline s : ℕ)
    (result : AttemptResult α) (fin : ℕ) : Prop where
  proceeds : result = .proceeds → ready fin = true
  returns : ∀ r, result = .returns r → WithDeadline op r ∧
    (ready fin = false ∧ deadline ≤ fin ∨
      held fin = true ∧ (offset ≤ 0 ∨ deadline ≤ s → deadline ≤ fin))
  panicked : result = .panicked → deadline < fin ∨ Overflows deadline s fin
  beyond : i64Limit * nanosPerSec ≤ (deadline : ℤ) → result = .panicked

theorem Attempt.keeps (h : Attempt op offset held ready until' s result fin) :
    Keeps op offset held ready until' s result fin := by
  cases h with
  | lockOverflows hs hstd hfin hvalid hfrom =>
    refine ⟨(by simp), (by simp), fun _ => ?_, fun _ => rfl⟩
    refine overflows_of_room hs hstd hfin (not_lt.mp fun hroom => ?_)
    obtain ⟨abstime, hok, -⟩ := fromInstant_deadline hstd hvalid hroom
    cases hok.symm.trans hfrom
  | lockTimedOut hop hlock =>
    refine ⟨(by simp), fun r hr => ?_, (by simp), fun h => absurd hlock.until_lt (not_lt.mpr h)⟩
    cases hr
    exact ⟨hop, Or.inr ⟨hlock.held_of_timedOut, hlock.not_early⟩⟩
  | lockPanicked hlock =>
    exact ⟨(by simp), (by simp), fun _ => Or.inl hlock.panicked_late.1, fun _ => rfl⟩
  | ready hlock _ hstd hstart hvalid hwait =>
    have hcomes := hwait.comesTo_of (by simp) hstd hstart hvalid
    exact ⟨fun _ => ((hcomes.ready_iff fin).mp hwait).1, (by simp), (by simp),
      fun h => absurd hlock.until_lt (not_lt.mpr h)⟩
  | timedOut hlock _ hstd hstart hvalid hop hwait =>
    have hcomes := hwait.comesTo_of (by simp) hstd hstart hvalid
    obtain ⟨hnot, -, hdeadline, -⟩ := (hcomes.timedOut_iff fin).mp hwait
    refine ⟨(by simp), fun r hr => ?_, (by simp), fun h => absurd hlock.until_lt (not_lt.mpr h)⟩
    cases hr
    exact ⟨hop, Or.inl ⟨hnot, by omega⟩⟩
  | panicked hlock hlocked hstd hstart hvalid hwait =>
    have hs := hlock.le_of_locked.trans hlocked
    exact ⟨(by simp), (by simp), fun _ => hwait.panicked_cases hs hstd hstart hvalid,
      fun _ => rfl⟩

/-- With a time-out the deadline counts from the reading of the clock, which is not before the
call. -/
theorem AttemptFor.keeps {timeout : ℕ} (h : AttemptFor op offset held ready timeout s result fin) :
    Keeps op offset held ready (s + timeout) s result fin := by
  cases h with
  | @attempts now _ _ hs hroom h =>
    have hkeeps := h.keeps
    refine ⟨hkeeps.proceeds, fun r hr => ?_, fun hr => ?_, fun hbeyond => ?_⟩
    · obtain ⟨hop, ⟨hnot, hfin⟩ | ⟨hheld, hfin⟩⟩ := hkeeps.returns r hr
      · exact ⟨hop, Or.inl ⟨hnot, by omega⟩⟩
      · exact ⟨hop, Or.inr ⟨hheld, fun hor => le_trans (by omega)
          (hfin (hor.imp_right (by omega)))⟩⟩
    · have hlate := hkeeps.panicked hr
      unfold Overflows at *
      omega
    · omega
  | overflows hs hfin hbeyond =>
    refine ⟨(by simp), (by simp), fun _ => Or.inr ?_, fun _ => rfl⟩
    unfold Overflows
    omega

/-- **An operation with a deadline, or with a time-out, keeps it** in every execution, with overflow
checks. -/
theorem deadlines_kept (op : Op α) (offset : ℤ) (held ready : ℕ → Bool) (s fin : ℕ)
    (result : AttemptResult α) :
    (∀ until', Attempt op offset held ready until' s result fin →
      Keeps op offset held ready until' s result fin) ∧
    ∀ timeout, AttemptFor op offset held ready timeout s result fin →
      Keeps op offset held ready (s + timeout) s result fin :=
  ⟨fun _ h => h.keeps, fun _ h => h.keeps⟩

/-- A send whose mutex is free and whose queue stays full reports the time-out at its deadline, and
a receive with the time-out `Duration::MAX` panics. -/
theorem deadlines_kept_at :
    Keeps (.trySendUntil 3) 0 (fun _ => false) (fun _ => false) 5 2
      (.returns (.trySend (.error (.timedOut 3)))) 5 ∧
    WithDeadline (.tryReceiveUntil (α := ℕ)) (.tryReceive (.error .timedOut)) ∧
    AttemptFor (.tryReceiveUntil (α := ℕ)) 0 (fun _ => false) (fun _ => true)
      (2 ^ 64 * nanosPerSec - 1) 2 .panicked 2 ∧
    ∀ result, AttemptFor (.tryReceiveUntil (α := ℕ)) 0 (fun _ => false) (fun _ => true)
      (2 ^ 64 * nanosPerSec - 1) 2 result 2 → result = .panicked := by
  have hvalid : (monitonic 2).Valid :=
    UnixClock.valid_ofNanos (by norm_num) (by norm_num [i64Limit, nanosPerSec])
  have hlock : TryLockUntil 0 (fun _ => false) 5 2 .locked 2 :=
    ⟨2, 2, 2, _, le_rfl, le_rfl, le_rfl, hvalid,
      fromInstant_monitonic (by norm_num) (by norm_num [i64Limit, nanosPerSec]),
      .locked le_rfl rfl⟩
  have hcomes : ComesTo (WaitUntil (fun _ => false) 5 2 2 2) (fun _ => false) 2 5 (¬ Slips 5 2 2) :=
    WaitUntil.comesTo _ le_rfl le_rfl hvalid (by norm_num [i64Limit, nanosPerSec])
  have hattempt : Attempt (.trySendUntil 3) 0 (fun _ => false) (fun _ => false) 5 2
      (.returns (.trySend (.error (.timedOut 3)))) 5 :=
    .timedOut hlock le_rfl le_rfl le_rfl hvalid (locksUntil_trySendUntil 3).withDeadline
      ((hcomes.timedOut_iff 5).mpr ⟨rfl, by norm_num, le_rfl, rfl, by decide⟩)
  refine ⟨(deadlines_kept _ _ _ _ _ _ _).1 5 hattempt,
    withDeadline_iff.mpr (Or.inr (Or.inl ⟨rfl, rfl⟩)),
    .overflows le_rfl le_rfl (by norm_num [i64Limit, nanosPerSec]), fun result h => ?_⟩
  exact ((deadlines_kept _ _ _ _ _ _ _).2 _ h).beyond (by norm_num [i64Limit, nanosPerSec])

end Operations

end ShmemUtils.Time
