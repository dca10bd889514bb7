import Mathlib

/-!
# Clock readings

`src/time.rs`: a `timespec`, and the addition and subtraction of a `Duration`. Durations and
instants are counted in nanoseconds, an instant from the start of the monotonic clock. As in the
rest of the model an `i64` operation that leaves its range is recorded as a panic.

`sub` borrows a second when the nanoseconds do not suffice, but then subtracts what is missing to a
full second instead of adding it; and it borrows already when they are equal.
-/

namespace ShmemUtils.Time

/-- The ways in which the clock arithmetic can panic. -/
inductive ClockPanic where
  -- `debug_assert!(seconds >= 0 && nanos >= 0)`
  | negative
  -- `expect("Too large duration")`
  | tooLarge
  -- `attempt to add with overflow`, `attempt to subtract with overflow`
  | overflow
deriving DecidableEq, Repr

def nanosPerSec : ℕ := 1000000000

/-- One past the greatest `i64`. -/
def i64Limit : ℤ := 2 ^ 63

namespace I64

/-- A value that fits an `i64`. -/
def checked (n : ℤ) : Except ClockPanic ℤ :=
  if -i64Limit ≤ n ∧ n < i64Limit then .ok n else .error .overflow

/-- `i64::try_from(n).expect("Too large duration")` -/
def tryFrom (n : ℕ) : Except ClockPanic ℤ :=
  if (n : ℤ) < i64Limit then .ok n else .error .tooLarge

theorem checked_eq {n : ℤ} (hlow : -i64Limit ≤ n) (hhigh : n < i64Limit) : checked n = .ok n :=
  if_pos ⟨hlow, hhigh⟩

theorem checked_ok {n m : ℤ} (h : checked n = .ok m) : m = n ∧ n < i64Limit := by
  unfold checked at h
  split at h
  · next hrange =>
    cases h
    exact ⟨rfl, hrange.2⟩
  · cases h

theorem tryFrom_eq {n : ℕ} (h : (n : ℤ) < i64Limit) : tryFrom n = .ok (n : ℤ) := if_pos h

theorem tryFrom_tooLarge {n : ℕ} (h : i64Limit ≤ n) : tryFrom n = .error .tooLarge :=
  if_neg (not_lt.mpr h)

end I64

/-- `libc::timespec` -/
structure UnixClock where
  tvSec : ℤ
  tvNsec : ℤ
deriving DecidableEq, Repr

/-- `debug_assert!(seconds >= 0 && nanos >= 0)` -/
def debugAssert (t : UnixClock) : Except ClockPanic Unit :=
  if 0 ≤ t.tvSec ∧ 0 ≤ t.tvNsec then .ok () else .error .negative

namespace UnixClock

/-- Adds duration to the instant. -/
def add (t : UnixClock) (duration : ℕ) : Except ClockPanic UnixClock := do
  debugAssert t
  let addSecs := duration / nanosPerSec
  let addNanos := duration - addSecs * nanosPerSec
  let addSecs ← I64.tryFrom addSecs
  let nanos ← I64.checked (t.tvNsec + addNanos)
  if nanosPerSec ≤ nanos then do
    let addSecs ← I64.checked (addSecs + 1)
    let seconds ← I64.checked (t.tvSec + addSecs)
    let nanos ← I64.checked (nanos - nanosPerSec)
    return ⟨seconds, nanos⟩
  else do
    let seconds ← I64.checked (t.tvSec + addSecs)
    return ⟨seconds, nanos⟩

/-- Substracts duration from the instant. -/
def sub (t : UnixClock) (duration : ℕ) : Except ClockPanic UnixClock := do
  debugAssert t
  let subSecs := duration / nanosPerSec
  let subNanos := duration - subSecs * nanosPerSec
  let subSecs ← I64.tryFrom subSecs
  if t.tvNsec ≤ subNanos then do
    let seconds ← I64.checked (t.tvSec - 1)
    let subNanos ← I64.checked ((nanosPerSec : ℤ) - subNanos)
    let seconds ← I64.checked (seconds - subSecs)
    let nanos ← I64.checked (t.tvNsec - subNanos)
    return ⟨seconds, nanos⟩
  else do
    let seconds ← I64.checked (t.tvSec - subSecs)
    let nanos ← I64.checked (t.tvNsec - subNanos)
    return ⟨seconds, nanos⟩

/-- `From<Instant>`, with the readings of `Instant::now` and of the monotonic clock. -/
def fromInstant (value stdNow : ℕ) (monotonicNow : UnixClock) : Except ClockPanic UnixClock :=
  if stdNow ≤ value then monotonicNow.add (value - stdNow)
  else monotonicNow.sub (stdNow - value)

/-! ## What a reading denotes -/

/-- A reading that a clock can return, and that `pthread` accepts. -/
structure Valid (t : UnixClock) : Prop where
  sec_nonneg : 0 ≤ t.tvSec
  sec_lt : t.tvSec < i64Limit
  nsec_nonneg : 0 ≤ t.tvNsec
  nsec_lt : t.tvNsec < nanosPerSec

/-- The point in time, in nanoseconds. -/
def nanos (t : UnixClock) : ℤ := t.tvSec * nanosPerSec + t.tvNsec

section Arithmetic

variable {t r : UnixClock} {d : ℕ}

theorem sub_mul_div (d : ℕ) : d - d / nanosPerSec * nanosPerSec = d % nanosPerSec := by
  have := Nat.div_add_mod' d nanosPerSec
  omega

theorem nanos_lt_of_mod (d : ℕ) : d % nanosPerSec < nanosPerSec :=
  Nat.mod_lt _ (by decide)

@[simp] theorem ok_bind {β γ : Type} (b : β) (f : β → Except ClockPanic γ) :
    (Except.ok b >>= f) = f b := rfl

@[simp] theorem pure_eq {β : Type} (b : β) : (pure b : Except ClockPanic β) = .ok b := rfl

theorem Valid.debugAssert (ht : t.Valid) : debugAssert t = .ok () :=
  if_pos ⟨ht.sec_nonneg, ht.nsec_nonneg⟩

/-- What `sub` computes on a valid reading that is not before the duration. -/
theorem sub_eq (ht : t.Valid) (hd : (d : ℤ) ≤ t.nanos) :
    t.sub d = .ok (if t.tvNsec ≤ (d % nanosPerSec : ℕ) then
      ⟨t.tvSec - 1 - (d / nanosPerSec : ℕ), t.tvNsec - (nanosPerSec - (d % nanosPerSec : ℕ))⟩
    else ⟨t.tvSec - (d / nanosPerSec : ℕ), t.tvNsec - (d % nanosPerSec : ℕ)⟩) := by
  have hlimit : (nanosPerSec : ℤ) + 1 < i64Limit := by norm_num [nanosPerSec, i64Limit]
  have hmod := nanos_lt_of_mod d
  have hsecs : ((d / nanosPerSec : ℕ) : ℤ) ≤ t.tvSec := by
    obtain ⟨-, -, hnsec, hnsec'⟩ := ht
    have hsplit := Nat.div_add_mod' d nanosPerSec
    unfold nanos nanosPerSec at *
    omega
  unfold sub
  rw [ht.debugAssert, ok_bind]
  simp only [sub_mul_div]
  generalize d / nanosPerSec = q at *
  generalize d % nanosPerSec = m at *
  obtain ⟨hsec, hsec', hnsec, hnsec'⟩ := ht
  rw [I64.tryFrom_eq (by omega), ok_bind]
  split
  · rw [I64.checked_eq (by omega) (by omega), ok_bind, I64.checked_eq (by omega) (by omega),
      ok_bind, I64.checked_eq (by omega) (by omega), ok_bind,
      I64.checked_eq (by omega) (by omega), ok_bind, pure_eq]
  · rw [I64.checked_eq (by omega) (by omega), ok_bind, I64.checked_eq (by omega) (by omega),
      ok_bind, pure_eq]

/-- The reading of a point in time. -/
def ofNanos (n : ℤ) : UnixClock := ⟨n / nanosPerSec, n % nanosPerSec⟩

theorem nanos_ofNanos (n : ℤ) : (ofNanos n).nanos = n := Int.ediv_mul_add_emod n nanosPerSec

theorem valid_ofNanos {n : ℤ} (hn : 0 ≤ n) (hlt : n < i64Limit * nanosPerSec) :
    (ofNanos n).Valid where
  sec_nonneg := Int.ediv_nonneg hn (by decide)
  sec_lt := Int.ediv_lt_of_lt_mul (by decide) hlt
  nsec_nonneg := Int.emod_nonneg _ (by decide)
  nsec_lt := Int.emod_lt_of_pos _ (by decide)

theorem Valid.nanos_nonneg (ht : t.Valid) : 0 ≤ t.nanos := by
  have hmul := Int.mul_nonneg ht.sec_nonneg (show (0 : ℤ) ≤ nanosPerSec by decide)
  have hnsec := ht.nsec_nonneg
  unfold nanos
  omega

/-- A reading with its nanoseconds in range is determined by the point in time. -/
theorem eq_ofNanos (hlow : 0 ≤ t.tvNsec) (hhigh : t.tvNsec < nanosPerSec) :
    t = ofNanos t.nanos := by
  have hdiv : t.nanos / nanosPerSec = t.tvSec := by
    rw [nanos, add_comm, Int.add_mul_ediv_right _ _ (by decide),
      Int.ediv_eq_zero_of_lt hlow hhigh, zero_add]
  have hmod : t.nanos % nanosPerSec = t.tvNsec := by
    rw [nanos, add_comm, Int.add_mul_emod_self_right, Int.emod_eq_of_lt hlow hhigh]
  rw [ofNanos, hdiv, hmod]

/-- The reading of a sum, as the seconds and the nanoseconds that `add` adds up. -/
theorem ofNanos_add (hlow : 0 ≤ t.tvNsec) (hhigh : t.tvNsec < nanosPerSec) (d : ℕ) :
    ofNanos (t.nanos + d) =
      if (nanosPerSec : ℤ) ≤ t.tvNsec + (d % nanosPerSec : ℕ) then
        ⟨t.tvSec + ((d / nanosPerSec : ℕ) + 1), t.tvNsec + (d % nanosPerSec : ℕ) - nanosPerSec⟩
      else ⟨t.tvSec + (d / nanosPerSec : ℕ), t.tvNsec + (d % nanosPerSec : ℕ)⟩ := by
  have hmod := nanos_lt_of_mod d
  have hsplit : (d : ℤ) = (d / nanosPerSec : ℕ) * (nanosPerSec : ℤ) + (d % nanosPerSec : ℕ) := by
    exact_mod_cast (Nat.div_add_mod' d nanosPerSec).symm
  rw [hsplit]
  generalize d / nanosPerSec = q at *
  generalize d % nanosPerSec = m at *
  split
  · next hcarry =>
    -- the nanoseconds make up another second
    have hnanos : nanos ⟨t.tvSec + (q + 1), t.tvNsec + m - nanosPerSec⟩ =
        t.nanos + (q * (nanosPerSec : ℤ) + m) := by
      unfold nanos
      ring
    rw [← hnanos]
    refine (eq_ofNanos ?_ ?_).symm
    · show 0 ≤ _ - _
      omega
    · show _ - _ < _
      omega
  · next hcarry =>
    have hnanos : nanos ⟨t.tvSec + q, t.tvNsec + m⟩ =
        t.nanos + (q * (nanosPerSec : ℤ) + m) := by
      unfold nanos
      ring
    rw [← hnanos]
    refine (eq_ofNanos ?_ ?_).symm
    · show 0 ≤ _ + _
      omega
    · show _ + _ < _
      omega

/-- What `add` computes on a valid reading that has room for the duration. -/
theorem add_eq (ht : t.Valid) (hroom : t.nanos + d < i64Limit * nanosPerSec) :
    t.add d = .ok (ofNanos (t.nanos + d)) := by
  have hlimit : 2 * (nanosPerSec : ℤ) < i64Limit := by norm_num [nanosPerSec, i64Limit]
  have hmod := nanos_lt_of_mod d
  have hsec := (valid_ofNanos (add_nonneg ht.nanos_nonneg (Int.natCast_nonneg d)) hroom).sec_lt
  rw [ofNanos_add ht.nsec_nonneg ht.nsec_lt] at hsec ⊢
  unfold add
  rw [ht.debugAssert, ok_bind]
  simp only [sub_mul_div]
  generalize d / nanosPerSec = q at *
  generalize d % nanosPerSec = m at *
  obtain ⟨hsec₀, -, hnsec, hnsec'⟩ := ht
  by_cases hcarry : (nanosPerSec : ℤ) ≤ t.tvNsec + m
  · simp only [if_pos hcarry] at hsec ⊢
    rw [I64.tryFrom_eq (by omega), ok_bind, I64.checked_eq (by omega) (by omega), ok_bind,
      if_pos hcarry, I64.checked_eq (by omega) (by omega), ok_bind,
      I64.checked_eq (by omega) (by omega), ok_bind, I64.checked_eq (by omega) (by omega), ok_bind,
      pure_eq]
  · simp only [if_neg hcarry] at hsec ⊢
    rw [I64.tryFrom_eq (by omega), ok_bind, I64.checked_eq (by omega) (by omega), ok_bind,
      if_neg hcarry, I64.checked_eq (by omega) (by omega), ok_bind, pure_eq]

theorem exists_of_bind {β γ : Type} {x : Except ClockPanic β} {f : β → Except ClockPanic γ} {c : γ}
    (h : (x >>= f) = .ok c) : ∃ b, x = .ok b ∧ f b = .ok c := by
  cases x with
  | error e => cases h
  | ok b => exact ⟨b, rfl, h⟩

/-- An addition that succeeds has room. -/
theorem room_of_add (ht : t.Valid) (h : t.add d = .ok r) :
    t.nanos + d < i64Limit * nanosPerSec := by
  have hsplit : (d : ℤ) = (d / nanosPerSec : ℕ) * (nanosPerSec : ℤ) + (d % nanosPerSec : ℕ) := by
    exact_mod_cast (Nat.div_add_mod' d nanosPerSec).symm
  have hmod := nanos_lt_of_mod d
  unfold add at h
  rw [ht.debugAssert, ok_bind] at h
  simp only [sub_mul_div] at h
  rw [hsplit]
  generalize d / nanosPerSec = q at *
  generalize d % nanosPerSec = m at *
  have hbound : ∀ {secs nsecs : ℤ}, secs < i64Limit → nsecs < nanosPerSec →
      secs * nanosPerSec + nsecs < i64Limit * nanosPerSec := by
    intro secs nsecs hsecs hnsecs
    have hmul := mul_le_mul_of_nonneg_right (Int.add_one_le_iff.mpr hsecs)
      (show (0 : ℤ) ≤ nanosPerSec by decide)
    linarith
  obtain ⟨addSecs, hadd, h⟩ := exists_of_bind h
  have haddSecs : addSecs = q := by
    unfold I64.tryFrom at hadd
    split at hadd
    · cases hadd
      rfl
    · cases hadd
  subst haddSecs
  obtain ⟨nsecs, hnsecs, h⟩ := exists_of_bind h
  obtain ⟨rfl, -⟩ := I64.checked_ok hnsecs
  split at h
  · obtain ⟨carried, hcarried, h⟩ := exists_of_bind h
    obtain ⟨rfl, -⟩ := I64.checked_ok hcarried
    obtain ⟨secs, hsecs, -⟩ := exists_of_bind h
    obtain ⟨-, hlt⟩ := I64.checked_ok hsecs
    have hsum := hbound hlt (show t.tvNsec + m - nanosPerSec < nanosPerSec by
      have := ht.nsec_lt
      omega)
    unfold nanos
    linarith
  · next hcarry =>
    obtain ⟨secs, hsecs, -⟩ := exists_of_bind h
    obtain ⟨-, hlt⟩ := I64.checked_ok hsecs
    have hsum := hbound hlt (not_le.mp hcarry)
    unfold nanos
    linarith

/-! ## When the arithmetic is exact -/

/-- The result is a valid reading of the point `n`. -/
def Reads (result : Except ClockPanic UnixClock) (n : ℤ) : Prop :=
  ∃ r, result = .ok r ∧ r.Valid ∧ r.nanos = n

theorem add_reads (ht : t.Valid) (hroom : t.nanos + d < i64Limit * nanosPerSec) :
    Reads (t.add d) (t.nanos + d) :=
  ⟨_, add_eq ht hroom, valid_ofNanos (add_nonneg ht.nanos_nonneg (Int.natCast_nonneg d)) hroom,
    nanos_ofNanos _⟩

/-- `sub` is exact when it does not borrow. -/
theorem sub_reads_iff (ht : t.Valid) (hd : (d : ℤ) ≤ t.nanos) :
    Reads (t.sub d) (t.nanos - d) ↔ ((d % nanosPerSec : ℕ) : ℤ) < t.tvNsec := by
  have hsplit : (d : ℤ) = (d / nanosPerSec : ℕ) * (nanosPerSec : ℤ) + (d % nanosPerSec : ℕ) := by
    exact_mod_cast (Nat.div_add_mod' d nanosPerSec).symm
  have hmod := nanos_lt_of_mod d
  unfold Reads
  rw [sub_eq ht hd]
  constructor
  · rintro ⟨r, hr, -, hnanos⟩
    by_contra hborrow
    rw [if_pos (not_lt.mp hborrow)] at hr
    cases hr
    -- the two points differ by twice what is missing to a second
    have hdiff : (2 : ℤ) * (d % nanosPerSec : ℕ) = 2 * nanosPerSec := by
      rw [hsplit] at hnanos
      unfold nanos at hnanos
      linarith
    omega
  · intro hlt
    refine ⟨_, by rw [if_neg (not_le.mpr hlt)], ?_, ?_⟩
    · obtain ⟨hsec, hsec', hnsec, hnsec'⟩ := ht
      have hsecs : ((d / nanosPerSec : ℕ) : ℤ) ≤ t.tvSec := by
        unfold nanos nanosPerSec at *
        omega
      have hnonneg := Int.natCast_nonneg (d / nanosPerSec)
      refine ⟨?_, ?_, ?_, ?_⟩
      · show 0 ≤ _ - _
        omega
      · show _ - _ < _
        omega
      · show 0 ≤ _ - _
        omega
      · show _ - _ < _
        omega
    · rw [hsplit]
      unfold nanos
      ring

theorem Reads.eq {n : ℤ} (h : Reads (.ok r) n) : r = ofNanos n := by
  obtain ⟨r', hr, hvalid, rfl⟩ := h
  cases hr
  exact eq_ofNanos hvalid.nsec_nonneg hvalid.nsec_lt

/-- Subtracting what was added leads back when the addition does not carry, and `sub` not borrow. -/
theorem add_sub_iff (ht : t.Valid) (hr : t.add d = .ok r) : r.sub d = .ok t ↔
    0 < t.tvNsec ∧ t.tvNsec + (d % nanosPerSec : ℕ) < nanosPerSec := by
  have hroom := room_of_add ht hr
  cases (add_eq ht hroom).symm.trans hr
  have hvalid := valid_ofNanos (add_nonneg ht.nanos_nonneg (Int.natCast_nonneg d)) hroom
  have hd : (d : ℤ) ≤ (ofNanos (t.nanos + d)).nanos := by
    rw [nanos_ofNanos]
    have := ht.nanos_nonneg
    omega
  have hreads : (ofNanos (t.nanos + d)).sub d = .ok t ↔
      Reads ((ofNanos (t.nanos + d)).sub d) ((ofNanos (t.nanos + d)).nanos - d) := by
    rw [nanos_ofNanos, add_sub_cancel_right]
    constructor
    · intro h
      exact ⟨t, h, ht, rfl⟩
    · rintro ⟨r', hr', hvalid', hnanos⟩
      rw [hr', eq_ofNanos hvalid'.nsec_nonneg hvalid'.nsec_lt, hnanos,
        ← eq_ofNanos ht.nsec_nonneg ht.nsec_lt]
  rw [hreads, sub_reads_iff hvalid hd]
  have hnsec : (ofNanos (t.nanos + d)).tvNsec =
      (t.tvNsec + (d % nanosPerSec : ℕ)) % nanosPerSec := by
    have hsplit : (d : ℤ) =
        (d / nanosPerSec : ℕ) * (nanosPerSec : ℤ) + (d % nanosPerSec : ℕ) := by
      exact_mod_cast (Nat.div_add_mod' d nanosPerSec).symm
    have hsum : t.nanos + d = t.tvNsec + (d % nanosPerSec : ℕ) +
        (t.tvSec + (d / nanosPerSec : ℕ)) * nanosPerSec := by
      rw [hsplit]
      unfold nanos
      push_cast
      ring
    show (t.nanos + d) % nanosPerSec = _
    rw [hsum, Int.add_mul_emod_self_right]
  rw [hnsec]
  have hmod := nanos_lt_of_mod d
  obtain ⟨-, -, hnonneg, hlt⟩ := ht
  generalize d % nanosPerSec = m at *
  by_cases hcarry : t.tvNsec + m < nanosPerSec
  · rw [Int.emod_eq_of_lt (by omega) hcarry]
    omega
  · rw [← Int.sub_emod_right, Int.emod_eq_of_lt (by omega) (by omega)]
    omega

/-- **When the clock arithmetic is exact**, from a reading that a clock can return: `sub` when the
nanoseconds of the duration are less than those of the reading; addition and subtraction undo each
other when the addition does not carry and the reading is not at a full second; and the conversion
of an instant when the instant is not past, or its subtraction is exact. -/
theorem clock_exact_iff (t : UnixClock) (ht : t.Valid) :
    (∀ d : ℕ, (d : ℤ) ≤ t.nanos →
      (Reads (t.sub d) (t.nanos - d) ↔ ((d % nanosPerSec : ℕ) : ℤ) < t.tvNsec)) ∧
    (∀ (r : UnixClock) (d : ℕ), t.add d = .ok r →
      (r.sub d = .ok t ↔ 0 < t.tvNsec ∧ t.tvNsec + (d % nanosPerSec : ℕ) < nanosPerSec)) ∧
    ∀ value stdNow : ℕ, t.nanos + (value - stdNow : ℕ) < i64Limit * nanosPerSec →
      ((stdNow - value : ℕ) : ℤ) ≤ t.nanos →
      (Reads (fromInstant value stdNow t) (t.nanos + value - stdNow) ↔
        stdNow ≤ value ∨ (((stdNow - value) % nanosPerSec : ℕ) : ℤ) < t.tvNsec) := by
  refine ⟨fun d hd => sub_reads_iff ht hd, fun r d hr => add_sub_iff ht hr,
    fun value stdNow hroom hpast => ?_⟩
  unfold fromInstant
  split
  · next hle =>
    have hreads := add_reads ht hroom
    have hpoint : t.nanos + (value - stdNow : ℕ) = t.nanos + value - stdNow := by omega
    rw [hpoint] at hreads
    exact iff_of_true hreads (Or.inl hle)
  · next hlt =>
    have hpoint : t.nanos - (stdNow - value : ℕ) = t.nanos + value - stdNow := by omega
    rw [← hpoint, sub_reads_iff ht hpast]
    exact (or_iff_right hlt).symm

end Arithmetic

/-- 1.000000005 s less 3 ns, the sum of both back to where it was, and a deadline 3 ns in the
past. -/
theorem clock_exact_example :
    Reads (sub ⟨1, 5⟩ 3) (nanos ⟨1, 5⟩ - (3 : ℕ)) ∧ sub ⟨1, 8⟩ 3 = .ok ⟨1, 5⟩ ∧
      Reads (fromInstant 2 5 ⟨1, 5⟩) (nanos ⟨1, 5⟩ + (2 : ℕ) - (5 : ℕ)) := by
  have hvalid : Valid ⟨1, 5⟩ := ⟨by decide, by norm_num [i64Limit], by decide, by decide⟩
  obtain ⟨hsub, hundo, hfrom⟩ := clock_exact_iff ⟨1, 5⟩ hvalid
  refine ⟨(hsub 3 (by decide)).mpr (by decide), ?_, ?_⟩
  · exact (hundo ⟨1, 8⟩ 3 (by rfl)).mpr ⟨by decide, by decide⟩
  · refine (hfrom 2 5 ?_ (by decide)).mpr (Or.inr (by decide))
    norm_num [nanos, i64Limit, nanosPerSec]

/-- One nanosecond before the full second. -/
theorem sub_of_borrow : ¬ ∀ (t : UnixClock) (d : ℕ), t.Valid → (d : ℤ) ≤ t.nanos →
    Reads (t.sub d) (t.nanos - d) := by
  intro h
  have hvalid : Valid ⟨1, 0⟩ := ⟨by decide, by norm_num [i64Limit], by decide, by decide⟩
  obtain ⟨r, hr, hreading, -⟩ := h ⟨1, 0⟩ 1 hvalid (by decide)
  have hsub : sub ⟨1, 0⟩ 1 = .ok ⟨0, -999999999⟩ := by rfl
  cases hsub.symm.trans hr
  exact absurd hreading.nsec_nonneg (by decide)

end UnixClock

end ShmemUtils.Time
