import ShmemUtils.Time.TimedLock

/-!
# Clock readings in a release build

`UnixClock::add` of `src/time.rs` once more, as `profile.release` of `Cargo.toml` compiles it: the
`debug_assert!` is gone, and an `i64` operation that leaves its range wraps around. What is left of
the checks is the conversion of the seconds of the duration. The carry and the seconds of the
reading are added after it.

`Duration::MAX` is refused. A duration just below the greatest `i64` of seconds is not, and the
deadline comes out before the reading.
-/

namespace ShmemUtils.Time

namespace I64

/-- The `i64` that an operation leaves when overflow checks are off. -/
def wrapping (n : ℤ) : ℤ := Int.bmod n (2 ^ 64)

theorem wrapping_eq {n : ℤ} (hlow : -i64Limit ≤ n) (hhigh : n < i64Limit) : wrapping n = n := by
  apply Int.bmod_eq_of_le
  · simpa [i64Limit] using hlow
  · simpa [i64Limit] using hhigh

/-- A sum that wraps does not see that one of its terms has wrapped. -/
theorem wrapping_add_wrapping (a b : ℤ) : wrapping (a + wrapping b) = wrapping (a + b) :=
  Int.add_bmod_bmod

/-- What has just left the range comes back at its other end. -/
theorem wrapping_neg {n : ℤ} (hlow : i64Limit ≤ n) (hhigh : n < 2 * i64Limit) :
    wrapping n < 0 := by
  have hback : wrapping n = wrapping (n - 2 ^ 64) := (Int.sub_bmod_right n (2 ^ 64)).symm
  unfold i64Limit at hlow hhigh
  rw [hback, wrapping_eq (by unfold i64Limit; omega) (by unfold i64Limit; omega)]
  omega

end I64

namespace UnixClock

/-- Adds duration to the instant, without overflow checks. -/
def addRelease (t : UnixClock) (duration : ℕ) : Except ClockPanic UnixClock := do
  let addSecs := duration / nanosPerSec
  let addNanos := duration - addSecs * nanosPerSec
  let addSecs ← I64.tryFrom addSecs
  let addNanos := I64.wrapping addNanos
  if nanosPerSec ≤ I64.wrapping (t.tvNsec + addNanos) then
    let seconds := I64.wrapping (t.tvSec + I64.wrapping (addSecs + 1))
    let nanos := I64.wrapping (t.tvNsec + addNanos)
    return ⟨seconds, I64.wrapping (nanos - nanosPerSec)⟩
  else
    return ⟨I64.wrapping (t.tvSec + addSecs), I64.wrapping (t.tvNsec + addNanos)⟩

/-- `Ord for UnixClock` -/
def cmp (a b : UnixClock) : Ordering :=
  (compare a.tvSec b.tvSec).then (compare a.tvNsec b.tvNsec)

section Release

variable {t r r' : UnixClock} {d : ℕ}

theorem Valid.normal (ht : t.Valid) : t.Normal := ⟨ht.nsec_nonneg, ht.nsec_lt⟩

/-- The code orders normal readings as the points in time that they denote. -/
theorem isLE_cmp (hr : r.Normal) (hr' : r'.Normal) : (r.cmp r').isLE ↔ r.nanos ≤ r'.nanos := by
  obtain ⟨hlow, hhigh⟩ := hr
  obtain ⟨hlow', hhigh'⟩ := hr'
  unfold cmp
  rw [Ordering.isLE_then_iff_or, Int.compare_eq_lt, Int.compare_eq_eq, Int.isLE_compare]
  unfold nanos nanosPerSec at *
  omega

/-- A valid reading is before the end of the range. -/
theorem nanos_lt_limit (ht : t.Valid) : t.nanos < i64Limit * nanosPerSec := by
  have hsec := ht.sec_lt
  have hnsec := ht.nsec_lt
  unfold nanos nanosPerSec i64Limit at *
  omega

theorem nanos_neg (hsec : t.tvSec < 0) (hnsec : t.tvNsec < nanosPerSec) : t.nanos < 0 := by
  unfold nanos nanosPerSec at *
  omega

theorem addRelease_tooLarge (hd : i64Limit ≤ (d / nanosPerSec : ℕ)) :
    t.addRelease d = .error .tooLarge := by
  unfold addRelease
  simp only
  rw [I64.tryFrom_tooLarge hd]
  rfl

/-- What `addRelease` computes on a valid reading: the sum, but for the wrapping of its seconds. -/
theorem addRelease_eq (ht : t.Valid) (hd : ((d / nanosPerSec : ℕ) : ℤ) < i64Limit) :
    t.addRelease d = .ok ⟨I64.wrapping (ofNanos (t.nanos + d)).tvSec,
      (ofNanos (t.nanos + d)).tvNsec⟩ := by
  have hlimit : 2 * (nanosPerSec : ℤ) < i64Limit := by norm_num [nanosPerSec, i64Limit]
  have hmod := nanos_lt_of_mod d
  rw [ofNanos_add ht.nsec_nonneg ht.nsec_lt]
  unfold addRelease
  simp only [sub_mul_div]
  rw [I64.tryFrom_eq hd, ok_bind]
  generalize d / nanosPerSec = q at *
  generalize d % nanosPerSec = m at *
  obtain ⟨-, -, hnsec, hnsec'⟩ := ht
  -- no sum of nanoseconds leaves the range
  rw [I64.wrapping_eq (n := m) (by omega) (by omega),
    I64.wrapping_eq (n := t.tvNsec + m) (by omega) (by omega), I64.wrapping_add_wrapping,
    I64.wrapping_eq (n := t.tvNsec + m - nanosPerSec) (by omega) (by omega)]
  split
  · rfl
  · rfl

/-- With room for the duration nothing wraps. -/
theorem addRelease_of_room (ht : t.Valid) (hroom : t.nanos + d < i64Limit * nanosPerSec) :
    t.addRelease d = .ok (ofNanos (t.nanos + d)) := by
  have hpos : (0 : ℤ) < nanosPerSec := by decide
  have hvalid := valid_ofNanos (add_nonneg ht.nanos_nonneg (Int.natCast_nonneg d)) hroom
  have hd : ((d / nanosPerSec : ℕ) : ℤ) < i64Limit := by
    rw [Int.natCast_ediv]
    apply Int.ediv_lt_of_lt_mul hpos
    have := ht.nanos_nonneg
    omega
  rw [addRelease_eq ht hd, I64.wrapping_eq _ hvalid.sec_lt]
  have hlimit : -i64Limit ≤ 0 := by decide
  exact hlimit.trans hvalid.sec_nonneg

/-- The duration is refused, or there is room for it. -/
def Fits (t : UnixClock) (d : ℕ) : Prop :=
  i64Limit ≤ (d / nanosPerSec : ℕ) ∨ t.nanos + d < i64Limit * nanosPerSec

/-- A duration that is let through without room for it leads to before the start of the clock. -/
theorem addRelease_of_not_fits (ht : t.Valid) (hfits : ¬ Fits t d) :
    ∃ r, t.addRelease d = .ok r ∧ r.Normal ∧ r.nanos < 0 := by
  have hpos : (0 : ℤ) < nanosPerSec := by decide
  obtain ⟨hd, hroom⟩ := not_or.mp hfits
  rw [not_le] at hd
  rw [not_lt] at hroom
  have htop : t.nanos + d < 2 * i64Limit * nanosPerSec := by
    have hsec := ht.sec_lt
    have hnsec := ht.nsec_lt
    have hsplit := Nat.div_add_mod' d nanosPerSec
    have hmod := nanos_lt_of_mod d
    unfold nanos nanosPerSec at *
    omega
  have hlow : 0 ≤ (ofNanos (t.nanos + d)).tvNsec := Int.emod_nonneg _ hpos.ne'
  have hhigh : (ofNanos (t.nanos + d)).tvNsec < nanosPerSec := Int.emod_lt_of_pos _ hpos
  have hneg : I64.wrapping (ofNanos (t.nanos + d)).tvSec < 0 :=
    I64.wrapping_neg (Int.le_ediv_of_mul_le hpos hroom) (Int.ediv_lt_of_lt_mul hpos htop)
  exact ⟨_, addRelease_eq ht hd, ⟨hlow, hhigh⟩, nanos_neg hneg hhigh⟩

/-- The checked build does the same where it does not panic. -/
theorem addRelease_of_add (ht : t.Valid) (h : t.add d = .ok r) :
    Fits t d ∧ t.addRelease d = .ok r := by
  have hroom := room_of_add ht h
  cases (add_eq ht hroom).symm.trans h
  exact ⟨Or.inr hroom, addRelease_of_room ht hroom⟩

/-! ## What is asked of a deadline -/

/-- The addition panics, or its result is a normal reading of the sum. -/
def AddsExactly (t : UnixClock) (d : ℕ) : Prop :=
  (∃ p, t.addRelease d = .error p) ∨
    ∃ r, t.addRelease d = .ok r ∧ r.Normal ∧ r.nanos = t.nanos + d

/-- The deadline is not before the reading. -/
def NeverEarlier (t : UnixClock) (d : ℕ) : Prop :=
  ∀ r, t.addRelease d = .ok r → (t.cmp r).isLE

/-- No shorter duration has a later deadline. -/
def MonotoneUpTo (t : UnixClock) (d : ℕ) : Prop :=
  ∀ d' ≤ d, ∀ r' r, t.addRelease d' = .ok r' → t.addRelease d = .ok r → (r'.cmp r).isLE

/-- A deadline is the sum, unless the duration is refused. -/
theorem Fits.result (ht : t.Valid) (hfits : Fits t d) (hr : t.addRelease d = .ok r) :
    t.nanos + d < i64Limit * nanosPerSec ∧ r = ofNanos (t.nanos + d) := by
  obtain hlarge | hroom := hfits
  · cases (addRelease_tooLarge hlarge).symm.trans hr
  · cases (addRelease_of_room ht hroom).symm.trans hr
    exact ⟨hroom, rfl⟩

theorem normal_ofNanos (n : ℤ) : (ofNanos n).Normal :=
  ⟨Int.emod_nonneg _ (by decide), Int.emod_lt_of_pos _ (by decide)⟩

theorem addsExactly_iff (ht : t.Valid) : AddsExactly t d ↔ Fits t d := by
  constructor
  · intro hexact
    by_contra hfits
    obtain ⟨r, hr, -, hneg⟩ := addRelease_of_not_fits ht hfits
    obtain ⟨p, hp⟩ | ⟨r', hr', -, hnanos⟩ := hexact
    · cases hp.symm.trans hr
    · cases hr'.symm.trans hr
      have := ht.nanos_nonneg
      omega
  · rintro (hlarge | hroom)
    · exact Or.inl ⟨_, addRelease_tooLarge hlarge⟩
    · exact Or.inr ⟨_, addRelease_of_room ht hroom, normal_ofNanos _, nanos_ofNanos _⟩

theorem neverEarlier_iff (ht : t.Valid) : NeverEarlier t d ↔ Fits t d := by
  constructor
  · intro hnever
    by_contra hfits
    obtain ⟨r, hr, hnormal, hneg⟩ := addRelease_of_not_fits ht hfits
    have hle := (isLE_cmp ht.normal hnormal).mp (hnever r hr)
    have := ht.nanos_nonneg
    omega
  · intro hfits r hr
    obtain ⟨-, rfl⟩ := hfits.result ht hr
    rw [isLE_cmp ht.normal (normal_ofNanos _), nanos_ofNanos]
    omega

theorem monotoneUpTo_iff (ht : t.Valid) : MonotoneUpTo t d ↔ Fits t d := by
  constructor
  · intro hmono
    by_contra hfits
    obtain ⟨r, hr, hnormal, hneg⟩ := addRelease_of_not_fits ht hfits
    -- the shorter duration is none at all
    have hzero : t.addRelease 0 = .ok (ofNanos (t.nanos + (0 : ℕ))) :=
      addRelease_of_room ht (by simpa using nanos_lt_limit ht)
    have hle := (isLE_cmp (normal_ofNanos _) hnormal).mp (hmono 0 (Nat.zero_le d) _ r hzero hr)
    rw [nanos_ofNanos] at hle
    have := ht.nanos_nonneg
    omega
  · intro hfits d' hd' r' r hr' hr
    obtain ⟨hroom, rfl⟩ := hfits.result ht hr
    have hroom' : t.nanos + d' < i64Limit * nanosPerSec := by omega
    cases (addRelease_of_room ht hroom').symm.trans hr'
    rw [isLE_cmp (normal_ofNanos _) (normal_ofNanos _), nanos_ofNanos, nanos_ofNanos]
    omega

/-- `Mutex::try_lock_for` without overflow checks, where it reads the clock at `now`. -/
def TryLockForRelease (offset : ℤ) (held : ℕ → Bool) (duration now : ℕ) (r : LockResult)
    (fin : ℕ) : Prop :=
  ∃ start abstime, now ≤ start ∧ (realtime offset now).addRelease duration = .ok abstime ∧
    TimedLock offset held abstime start r fin

/-- With a duration that wraps it gives up a held mutex at once. -/
theorem timedLock_of_not_fits {offset : ℤ} {now : ℕ} (hnow : (realtime offset now).Valid)
    (hfits : ¬ Fits (realtime offset now) d) :
    ∃ abstime, (realtime offset now).addRelease d = .ok abstime ∧
      TimedLock offset (fun _ => true) abstime now .timedOut now := by
  obtain ⟨r, hr, hnormal, hneg⟩ := addRelease_of_not_fits hnow hfits
  refine ⟨r, hr, .timedOut le_rfl rfl hnormal ?_⟩
  have hnonneg := hnow.nanos_nonneg
  rw [realtime, nanos_ofNanos] at hnonneg
  exact hneg.le.trans hnonneg

/-- A release build of `Mutex::try_lock_for` waits for its whole duration exactly when the addition
to its reading of the clock does not wrap. -/
theorem tryLockForRelease_not_early_iff {offset : ℤ} {now : ℕ}
    (hnow : (realtime offset now).Valid) :
    (∀ held fin, TryLockForRelease offset held d now .timedOut fin → now + d ≤ fin) ↔
      Fits (realtime offset now) d := by
  have hnanos : (realtime offset now).nanos = now + offset := by
    rw [realtime, nanos_ofNanos]
  constructor
  · intro hall
    by_contra hfits
    obtain ⟨abstime, hadd, hlock⟩ := timedLock_of_not_fits hnow hfits
    have hlate := hall _ now ⟨now, abstime, le_rfl, hadd, hlock⟩
    -- a duration that wraps is not zero
    have hroom := nanos_lt_limit hnow
    obtain rfl : d = 0 := by omega
    exact hfits (Or.inr (by simpa using hroom))
  · rintro hfits held fin ⟨start, abstime, -, hadd, hlock⟩
    obtain ⟨-, rfl⟩ := hfits.result hnow hadd
    obtain ⟨-, habstime⟩ := hlock.timedOut_cases
    rw [nanos_ofNanos, hnanos] at habstime
    omega

/-- **When a release build adds without wrapping**: when the seconds of the duration do not fit an
`i64`, so that it is refused, or the sum is before the last `i64` second has passed. The same
condition says that the deadline is not before the reading, and that it is monotone. -/
theorem addRelease_exact_iff (t : UnixClock) (d : ℕ) (ht : t.Valid) :
    (AddsExactly t d ↔ Fits t d) ∧ (NeverEarlier t d ↔ Fits t d) ∧
      (MonotoneUpTo t d ↔ Fits t d) :=
  ⟨addsExactly_iff ht, neverEarlier_iff ht, monotoneUpTo_iff ht⟩

end Release

/-- One second later by a hundred years, and by a duration that is refused. -/
theorem addRelease_exact_example :
    (AddsExactly ⟨1, 0⟩ (3155760000 * nanosPerSec) ∧
      NeverEarlier ⟨1, 0⟩ (3155760000 * nanosPerSec) ∧
      MonotoneUpTo ⟨1, 0⟩ (3155760000 * nanosPerSec)) ∧
    AddsExactly ⟨1, 0⟩ (2 ^ 63 * nanosPerSec) := by
  have hvalid : Valid ⟨1, 0⟩ := ⟨by decide, by norm_num [i64Limit], by decide, by decide⟩
  obtain ⟨hexact, hnever, hmono⟩ :=
    addRelease_exact_iff ⟨1, 0⟩ (3155760000 * nanosPerSec) hvalid
  obtain ⟨hlarge, -, -⟩ := addRelease_exact_iff ⟨1, 0⟩ (2 ^ 63 * nanosPerSec) hvalid
  have hroom : Fits ⟨1, 0⟩ (3155760000 * nanosPerSec) := by
    refine Or.inr ?_
    norm_num [nanos, nanosPerSec, i64Limit]
  refine ⟨⟨hexact.mpr hroom, hnever.mpr hroom, hmono.mpr hroom⟩, hlarge.mpr (Or.inl ?_)⟩
  norm_num [nanosPerSec, i64Limit]

/-- The greatest `i64` of seconds, one second after the start of the clock: the deadline is the
least `i64` of seconds. -/
theorem addRelease_wraps :
    addRelease ⟨1, 0⟩ ((2 ^ 63 - 1) * nanosPerSec) = .ok ⟨-2 ^ 63, 0⟩ ∧
    ¬ ∀ (t : UnixClock) (d : ℕ), t.Valid → AddsExactly t d ∧ NeverEarlier t d ∧ MonotoneUpTo t d := by
  have hwraps : addRelease ⟨1, 0⟩ ((2 ^ 63 - 1) * nanosPerSec) = .ok ⟨-2 ^ 63, 0⟩ := by decide
  refine ⟨hwraps, fun hall => ?_⟩
  have hvalid : Valid ⟨1, 0⟩ := ⟨by decide, by norm_num [i64Limit], by decide, by decide⟩
  obtain ⟨-, hnever, -⟩ := hall ⟨1, 0⟩ _ hvalid
  exact absurd (hnever _ hwraps) (by decide)

end UnixClock

end ShmemUtils.Time
