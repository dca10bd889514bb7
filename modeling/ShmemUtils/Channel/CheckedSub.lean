import ShmemUtils.Word
import ShmemUtils.Library.Linearizable
import Mathlib.Data.Finset.Card

/-!
# The counters of senders and receivers

`atomic_checked_sub` of `src/channel.rs`, which the drops of a sender and of a receiver call. Any
number of calls work on one counter, together with the other writers: the `fetch_add(1)` of
`make_sender` and `make_receiver`, and the `swap(0)` of the teardown. The load, the zero check and
the `compare_exchange_weak` are steps of their own, and an exchange may fail without a reason.

A call takes effect where it learns the value that it acts on: in the exchange that succeeds, or in
the load or the failed exchange that reads zero.
-/

namespace ShmemUtils.Channel.CheckedSub

open ShmemUtils.Library

/-- Where a call of `atomic_checked_sub` is. -/
inductive SubPc where
  | idle
  | load
  -- the head of the loop, with the value read
  | check (counter : ℕ)
  | exchange (counter newValue : ℕ) (sub : Usize.checkedSub counter 1 = some newValue)
  | returned (value : ℕ)
deriving DecidableEq

/-- The counter, and the calls on it. -/
structure Counter (ι : Type) where
  value : ℕ
  calls : ι → SubPc

/-- What happens next: a step of a call, or of another writer. -/
inductive Event (ι : Type) where
  | begin (k : ι)
  | run (k : ι)
  | exchange (k : ι) (spurious : Bool)
  | fetchAdd
  | swap
deriving DecidableEq

/-- The call that takes the step. -/
def Event.call? {ι : Type} : Event ι → Option ι
  | .begin k => some k
  | .run k => some k
  | .exchange k _ => some k
  | _ => none

variable {ι : Type} [DecidableEq ι]

namespace Counter

def goto (c : Counter ι) (k : ι) (pc : SubPc) : Counter ι :=
  { c with calls := fun k' => if k' = k then pc else c.calls k' }

@[simp] theorem goto_value (c : Counter ι) (k : ι) (pc : SubPc) : (c.goto k pc).value = c.value :=
  rfl

@[simp] theorem goto_calls_self (c : Counter ι) (k : ι) (pc : SubPc) :
    (c.goto k pc).calls k = pc := if_pos rfl

theorem goto_calls_of_ne {c : Counter ι} {k k' : ι} {pc : SubPc} (h : k' ≠ k) :
    (c.goto k pc).calls k' = c.calls k' := if_neg h

/-- A counter on which no call has begun. -/
def start (value : ℕ) : Counter ι := ⟨value, fun _ => .idle⟩

end Counter

/-- One step on the counter. -/
inductive Step : Counter ι → Event ι → Counter ι → Prop where
  | begin {c : Counter ι} {k : ι} : c.calls k = .idle → Step c (.begin k) (c.goto k .load)
  | load {c : Counter ι} {k : ι} : c.calls k = .load → Step c (.run k) (c.goto k (.check c.value))
  | check {c : Counter ι} {k : ι} {counter newValue : ℕ}
      (sub : Usize.checkedSub counter 1 = some newValue) : c.calls k = .check counter →
      Step c (.run k) (c.goto k (.exchange counter newValue sub))
  -- "This probably means the original `Channel` structure was destroyed. It's okay."
  | checkZero {c : Counter ι} {k : ι} {counter : ℕ} : c.calls k = .check counter →
      Usize.checkedSub counter 1 = none → Step c (.run k) (c.goto k (.returned 0))
  -- "Yay, we did it!"
  | exchange {c : Counter ι} {k : ι} {counter newValue : ℕ}
      {sub : Usize.checkedSub counter 1 = some newValue} :
      c.calls k = .exchange counter newValue sub → c.value = counter →
      Step c (.exchange k false) ({ c with value := newValue }.goto k (.returned newValue))
  -- "Well, then we need to try again."
  | retry {c : Counter ι} {k : ι} {counter newValue : ℕ} {spurious : Bool}
      {sub : Usize.checkedSub counter 1 = some newValue} :
      c.calls k = .exchange counter newValue sub → spurious = true ∨ c.value ≠ counter →
      Step c (.exchange k spurious) (c.goto k (.check c.value))
  | fetchAdd {c : Counter ι} :
      Step c .fetchAdd { c with value := Usize.wrappingAdd c.value 1 }
  | swap {c : Counter ι} : Step c .swap { c with value := 0 }

/-! ## The atomic counter -/

/-- The atomic operations on a counter. -/
inductive AtomicOp where
  -- a decrement that stops at zero, and returns the value after it
  | saturatingSub
  -- these return the value before them
  | fetchAdd
  | swap
deriving DecidableEq

def AtomicOp.apply : AtomicOp → ℕ → ℕ × ℕ
  | .saturatingSub, n => (n - 1, n - 1)
  | .fetchAdd, n => (Usize.wrappingAdd n 1, n)
  | .swap, n => (0, n)

/-- The atomic operation that a step stands for. -/
def commit (c : Counter ι) : Event ι → Option (Entry (Option ι) AtomicOp ℕ)
  | .begin _ => none
  | .run k =>
    if c.calls k = .load ∧ c.value = 0 then some ⟨some k, .saturatingSub, 0⟩ else none
  | .exchange k spurious =>
    match c.calls k with
    | .exchange counter newValue _ =>
      if spurious = false ∧ c.value = counter then some ⟨some k, .saturatingSub, newValue⟩
      else if c.value = 0 then some ⟨some k, .saturatingSub, 0⟩
      else none
    | _ => none
  | .fetchAdd => some ⟨none, .fetchAdd, c.value⟩
  | .swap => some ⟨none, .swap, c.value⟩

/-- What a call returns, once that is settled. -/
def SubPc.outcome : SubPc → Option ℕ
  | .check 0 => some 0
  | .returned value => some value
  | _ => none

theorem eq_succ_of_checkedSub {counter newValue : ℕ}
    (h : Usize.checkedSub counter 1 = some newValue) : counter = newValue + 1 := by
  unfold Usize.checkedSub at h
  split at h
  · cases h
    omega
  · cases h

theorem eq_zero_of_checkedSub {counter : ℕ} (h : Usize.checkedSub counter 1 = none) :
    counter = 0 := by
  unfold Usize.checkedSub at h
  split at h
  · cases h
  · omega

theorem outcome_check (counter : ℕ) :
    (SubPc.check counter).outcome = if counter = 0 then some 0 else none := by
  cases counter <;> rfl

/-- The call has begun and has not taken effect. -/
def SubPc.Pending : SubPc → Prop
  | .load => True
  | .exchange _ _ _ => True
  | _ => False

theorem SubPc.Pending.outcome {pc : SubPc} (h : pc.Pending) : pc.outcome = none := by
  cases pc with
  | load => rfl
  | exchange => rfl
  | _ => exact h.elim

/-! ## What a step does -/

/-- The effect of a step: none, the decrement of one call, or the operation of another writer. -/
inductive Effect (c : Counter ι) (i : Event ι) (c' : Counter ι) : Prop where
  | silent : commit c i = none → c'.value = c.value →
      (∀ k, (c'.calls k).outcome = (c.calls k).outcome) → Effect c i c'
  | sub {k : ι} : i.call? = some k → commit c i = some ⟨some k, .saturatingSub, c'.value⟩ →
      c'.value = c.value - 1 → (c.calls k).Pending → (c'.calls k).outcome = some c'.value →
      (∀ k', k' ≠ k → c'.calls k' = c.calls k') → Effect c i c'
  | other {op : AtomicOp} : i.call? = none → commit c i = some ⟨none, op, c.value⟩ →
      op.apply c.value = (c'.value, c.value) → c'.calls = c.calls → Effect c i c'

/-- A call that goes on leaves the outcomes alone when it keeps its own. -/
theorem outcome_goto {c : Counter ι} {k : ι} {pc : SubPc} (h : pc.outcome = (c.calls k).outcome)
    (k' : ι) : ((c.goto k pc).calls k').outcome = (c.calls k').outcome := by
  by_cases hk : k' = k
  · subst hk
    rw [Counter.goto_calls_self]
    exact h
  · rw [Counter.goto_calls_of_ne hk]

variable {c c' : Counter ι} {i : Event ι}

/-- **What a step on the counter does.** -/
theorem effect_of_step (hstep : Step c i c') : Effect c i c' := by
  cases hstep with
  | @begin k hk => exact .silent rfl rfl (outcome_goto (by rw [hk]; rfl))
  | @load k hk =>
    by_cases hzero : c.value = 0
    · refine .sub (k := k) rfl ?_ ?_ ?_ ?_ fun k' hne => Counter.goto_calls_of_ne hne
      · rw [commit, if_pos ⟨hk, hzero⟩, Counter.goto_value, hzero]
      · rw [Counter.goto_value, hzero]
      · rw [hk]
        trivial
      · rw [Counter.goto_calls_self, Counter.goto_value, hzero]
        rfl
    · refine .silent ?_ rfl (outcome_goto ?_)
      · rw [commit, if_neg fun h => hzero h.2]
      · rw [outcome_check, if_neg hzero, hk]
        rfl
  | @check k counter newValue sub hk =>
    refine .silent ?_ rfl (outcome_goto ?_)
    · rw [commit, hk, if_neg (by simp)]
    · have hpos : counter ≠ 0 := by
        rw [eq_succ_of_checkedSub sub]
        exact Nat.succ_ne_zero newValue
      rw [hk, outcome_check, if_neg hpos]
      rfl
  | @checkZero k counter hk hsub =>
    refine .silent ?_ rfl (outcome_goto ?_)
    · rw [commit, hk, if_neg (by simp)]
    · rw [hk, eq_zero_of_checkedSub hsub]
      rfl
  | @exchange k counter newValue sub hk hvalue =>
    refine .sub (k := k) rfl ?_ ?_ ?_ ?_ fun k' hne => Counter.goto_calls_of_ne hne
    · simp [commit, hk, hvalue]
    · rw [hvalue, eq_succ_of_checkedSub sub]
      rfl
    · rw [hk]
      trivial
    · rw [Counter.goto_calls_self]
      rfl
  | @retry k counter newValue spurious sub hk hfail =>
    have hcommit : commit c (.exchange k spurious) =
        if c.value = 0 then some ⟨some k, .saturatingSub, 0⟩ else none := by
      simp only [commit, hk]
      rw [if_neg]
      rintro ⟨rfl, hvalue⟩
      exact hfail.elim (fun h => by cases h) fun h => h hvalue
    by_cases hzero : c.value = 0
    · refine .sub (k := k) rfl ?_ ?_ ?_ ?_ fun k' hne => Counter.goto_calls_of_ne hne
      · rw [hcommit, if_pos hzero, Counter.goto_value, hzero]
      · rw [Counter.goto_value, hzero]
      · rw [hk]
        trivial
      · rw [Counter.goto_calls_self, Counter.goto_value, hzero]
        rfl
    · refine .silent ?_ rfl (outcome_goto ?_)
      · rw [hcommit, if_neg hzero]
      · rw [outcome_check, if_neg hzero, hk]
        rfl
  | fetchAdd => exact .other rfl rfl rfl rfl
  | swap => exact .other rfl rfl rfl rfl

/-- The linearization points of the calls on a counter. -/
def points : Points (Step (ι := ι)) AtomicOp.apply (Option ι) where
  abs := Counter.value
  commit := commit
  silent {c i c'} hstep hnone := by
    cases effect_of_step hstep with
    | silent _ hvalue _ => exact hvalue
    | sub _ hcommit => cases hnone.symm.trans hcommit
    | other _ hcommit => cases hnone.symm.trans hcommit
  effect {c i c' e} hstep hsome := by
    cases effect_of_step hstep with
    | silent hcommit => cases hcommit.symm.trans hsome
    | sub _ hcommit hvalue =>
      cases hcommit.symm.trans hsome
      simp only [AtomicOp.apply, hvalue]
    | other _ hcommit happly =>
      cases hcommit.symm.trans hsome
      exact happly

/-- The calls do nothing but decrement. -/
theorem op_of_caller {k : ι} {op : AtomicOp} {r : ℕ} (hstep : Step c i c')
    (hcommit : commit c i = some ⟨some k, op, r⟩) : op = .saturatingSub := by
  cases effect_of_step hstep with
  | silent hnone => cases hnone.symm.trans hcommit
  | sub _ hcommit' =>
    cases hcommit'.symm.trans hcommit
    rfl
  | other _ hcommit' => cases hcommit'.symm.trans hcommit

/-- What a call returns is settled by its decrement. -/
theorem settles (k : ι) : points.Settles (some k) fun c => (c.calls k).outcome where
  keeps {c i c'} hstep hother := by
    cases effect_of_step hstep with
    | silent _ _ houtcome => exact houtcome k
    | @sub k' _ hcommit _ _ _ hcalls =>
      have hne : k ≠ k' := by
        rintro rfl
        exact hother _ hcommit rfl
      simp only [hcalls k hne]
    | other _ _ _ hcalls => simp only [hcalls]
  settles {c i c' e} hstep hsome hcaller := by
    cases effect_of_step hstep with
    | silent hcommit => cases hcommit.symm.trans hsome
    | sub _ hcommit _ hpending houtcome =>
      cases hcommit.symm.trans hsome
      cases hcaller
      exact ⟨hpending.outcome, houtcome⟩
    | other _ hcommit =>
      cases hcommit.symm.trans hsome
      cases hcaller

/-! ## Calls without other writers -/

/-- Every step is taken by one of the calls in `s`. -/
def TakenBy (s : Finset ι) (_ : Counter ι) (i : Event ι) : Prop := ∃ k ∈ s, i.call? = some k

/-- The calls whose outcome is settled. -/
def settled (s : Finset ι) (c : Counter ι) : Finset ι :=
  s.filter fun k => (c.calls k).outcome.isSome

/-- The settled calls of `s` have counted down from their number, one value each. -/
structure CountsDown (s : Finset ι) (c : Counter ι) : Prop where
  balance : c.value + (settled s c).card = s.card
  range : ∀ k ∈ s, ∀ r, (c.calls k).outcome = some r → c.value ≤ r ∧ r < s.card
  distinct : ∀ k ∈ s, ∀ k' ∈ s, ∀ r, (c.calls k).outcome = some r →
    (c.calls k').outcome = some r → k = k'

variable {s : Finset ι}

omit [DecidableEq ι] in
/-- Before any call has begun. -/
theorem countsDown_start (s : Finset ι) : CountsDown s (.start s.card) where
  balance := by simp [settled, Counter.start, SubPc.outcome]
  range k _ r hr := by cases hr
  distinct k _ k' _ r hr := by cases hr

omit [DecidableEq ι] in
/-- A call that has not taken effect leaves something to decrement. -/
theorem CountsDown.pos (h : CountsDown s c) {k : ι} (hk : k ∈ s)
    (hnone : (c.calls k).outcome = none) : 0 < c.value := by
  have hsub : settled s c ⊂ s := by
    refine Finset.filter_ssubset.mpr ⟨k, hk, ?_⟩
    rw [hnone]
    simp
  have hlt := Finset.card_lt_card hsub
  have hbalance := h.balance
  omega

/-- The decrement of one more call. -/
theorem CountsDown.sub (h : CountsDown s c) {k : ι} (hk : k ∈ s)
    (hvalue : c'.value = c.value - 1) (hnone : (c.calls k).outcome = none)
    (houtcome : (c'.calls k).outcome = some c'.value)
    (hcalls : ∀ k', k' ≠ k → c'.calls k' = c.calls k') : CountsDown s c' := by
  have hpos := h.pos hk hnone
  have hsettled : settled s c' = insert k (settled s c) := by
    ext k'
    by_cases hk' : k' = k
    · subst hk'
      simp [settled, hk, houtcome]
    · simp [settled, hcalls k' hk', hk']
  have hnot : k ∉ settled s c := by simp [settled, hnone]
  refine ⟨?_, fun k' hk' r hr => ?_, ?_⟩
  · rw [hsettled, Finset.card_insert_of_notMem hnot, hvalue, ← h.balance]
    omega
  · by_cases heq : k' = k
    · subst heq
      cases houtcome.symm.trans hr
      have hbalance := h.balance
      omega
    · rw [hcalls k' heq] at hr
      have hrange := h.range k' hk' r hr
      omega
  · -- the new result is below all others
    have hnew : ∀ k' ∈ s, k' ≠ k → (c'.calls k').outcome ≠ some c'.value := by
      intro k' hk' hne hr
      rw [hcalls k' hne] at hr
      have hrange := h.range k' hk' _ hr
      omega
    intro k₁ hk₁ k₂ hk₂ r hr₁ hr₂
    by_cases h₁ : k₁ = k
    · subst h₁
      cases houtcome.symm.trans hr₁
      by_contra hne
      exact hnew k₂ hk₂ (Ne.symm hne) hr₂
    · by_cases h₂ : k₂ = k
      · subst h₂
        cases houtcome.symm.trans hr₂
        exact absurd hr₁ (hnew k₁ hk₁ h₁)
      · rw [hcalls k₁ h₁] at hr₁
        rw [hcalls k₂ h₂] at hr₂
        exact h.distinct k₁ hk₁ k₂ hk₂ r hr₁ hr₂

theorem CountsDown.step (h : CountsDown s c) (hby : TakenBy s c i) (hstep : Step c i c') :
    CountsDown s c' := by
  obtain ⟨k, hk, hcall⟩ := hby
  cases effect_of_step hstep with
  | silent _ hvalue houtcome =>
    have hsettled : settled s c' = settled s c := by
      unfold settled
      simp only [houtcome]
    refine ⟨?_, fun k hk r hr => ?_, fun k hk k' hk' r hr hr' => ?_⟩
    · rw [hvalue, hsettled]
      exact h.balance
    · rw [houtcome] at hr
      rw [hvalue]
      exact h.range k hk r hr
    · rw [houtcome] at hr hr'
      exact h.distinct k hk k' hk' r hr hr'
  | sub hcall' _ hvalue hpending houtcome hcalls =>
    cases hcall.symm.trans hcall'
    exact h.sub hk hvalue hpending.outcome houtcome hcalls
  | other hcall' => cases hcall.symm.trans hcall'

omit [DecidableEq ι] in
/-- When all of them are settled, the counter is zero, and one of them has brought it there. -/
theorem CountsDown.last (h : CountsDown s c) (hpos : 0 < s.card)
    (hall : ∀ k ∈ s, ∃ r, (c.calls k).outcome = some r) :
    c.value = 0 ∧ ∃ k ∈ s, (c.calls k).outcome = some 0 := by
  have hsettled : settled s c = s := by
    refine Finset.filter_eq_self.mpr fun k hk => ?_
    obtain ⟨r, hr⟩ := hall k hk
    rw [hr]
    rfl
  have hzero : c.value = 0 := by
    have hbalance := h.balance
    rw [hsettled] at hbalance
    omega
  refine ⟨hzero, ?_⟩
  -- the results are as many values below the number of calls as there are
  let result : ι → ℕ := fun k => ((c.calls k).outcome).getD 0
  have hresult : ∀ k ∈ s, (c.calls k).outcome = some (result k) := by
    intro k hk
    obtain ⟨r, hr⟩ := hall k hk
    simp only [result, hr, Option.getD_some]
  have hsubset : s.image result ⊆ Finset.range s.card := by
    intro r hr
    obtain ⟨k, hk, rfl⟩ := Finset.mem_image.mp hr
    exact Finset.mem_range.mpr (h.range k hk _ (hresult k hk)).2
  have hcard : (s.image result).card = s.card := by
    refine Finset.card_image_of_injOn fun k hk k' hk' heq => ?_
    refine h.distinct k hk k' hk' _ (hresult k hk) ?_
    rw [hresult k' hk']
    exact congrArg some heq.symm
  have himage : s.image result = Finset.range s.card :=
    Finset.eq_of_subset_of_card_le hsubset (by rw [Finset.card_range, hcard])
  have hmem : 0 ∈ s.image result := by
    rw [himage]
    exact Finset.mem_range.mpr hpos
  obtain ⟨k, hk, heq⟩ := Finset.mem_image.mp hmem
  exact ⟨k, hk, by rw [hresult k hk, heq]⟩

/-! ## Runs -/

/-- Exactly one step of the trace is the decrement of the call `k`. The call is pending in it, and
returns the value that the counter has after it. -/
def TakesEffect (tr : List (Counter ι × Event ι)) (k : ι) (r : ℕ) : Prop :=
  ∃ after c i c' before, tr = after ++ (c, i) :: before ∧ Step c i c' ∧ i.call? = some k ∧
    (c.calls k).Pending ∧ c'.value = c.value - 1 ∧ r = c'.value ∧
    points.Absent after (some k) ∧ points.Absent before (some k)

/-- A call leaves the counter alone, or takes one from a positive value. -/
def NeverWraps (c : Counter ι) (i : Event ι) (c' : Counter ι) : Prop :=
  ∀ k, i.call? = some k → c'.value = c.value ∨ 0 < c.value ∧ c'.value + 1 = c.value

theorem neverWraps_of_step (hstep : Step c i c') : NeverWraps c i c' := by
  intro k hcall
  cases effect_of_step hstep with
  | silent _ hvalue => exact Or.inl hvalue
  | sub _ _ hvalue => omega
  | other hcall' => cases hcall.symm.trans hcall'

theorem takesEffect_of_outcome {v r : ℕ} {k : ι} {tr : List (Counter ι × Event ι)}
    (hrun : Run Step (.start v) tr c) (h : (c.calls k).outcome = some r) : TakesEffect tr k r := by
  obtain ⟨after, c₁, i, c₂, before, op, rfl, hstep, hcommit, habsent, habsent'⟩ :=
    ((settles k).once hrun rfl).2 r h
  cases effect_of_step hstep with
  | silent hnone => cases hnone.symm.trans hcommit
  | sub hcall hcommit' hvalue hpending =>
    cases hcommit'.symm.trans hcommit
    exact ⟨after, c₁, i, c₂, before, rfl, hstep, hcall, hpending, hvalue, rfl, habsent, habsent'⟩
  | other _ hcommit' => cases hcommit'.symm.trans hcommit

/-- **`atomic_checked_sub` is a linearizable saturating decrement**: the linearization points of a
run are a legal history of the atomic counter; every call that has returned has taken effect in
exactly one of its steps, and returns the value after it; no call takes the counter below zero; and
when as many calls as the counter says, and nobody else, have run to their ends, the counter is zero
and exactly one of them returned zero. -/
theorem checkedSub_linearizable {v : ℕ} {tr : List (Counter ι × Event ι)}
    (hrun : Run Step (.start v) tr c) :
    Legal AtomicOp.apply v (points.history tr) c.value ∧
    (∀ k r, c.calls k = .returned r → TakesEffect tr k r) ∧
    Throughout (fun c i => ∀ c', Step c i c' → NeverWraps c i c') tr ∧
    ∀ s : Finset ι, 0 < s.card → v = s.card → Throughout (TakenBy s) tr →
      (∀ k ∈ s, ∃ r, c.calls k = .returned r) →
        c.value = 0 ∧ ∃! k, k ∈ s ∧ c.calls k = .returned 0 := by
  refine ⟨points.legal hrun, fun k r hk => ?_, fun x _ c' hstep => neverWraps_of_step hstep,
    fun s hpos hv hby hall => ?_⟩
  · exact takesEffect_of_outcome hrun (by rw [hk]; rfl)
  · subst hv
    have hdown : CountsDown s c := hrun.invariant (countsDown_start s) (fun h => h.step) hby
    have hreturned : ∀ k ∈ s, ∀ r, (c.calls k).outcome = some r → c.calls k = .returned r := by
      intro k hk r hr
      obtain ⟨r', hr'⟩ := hall k hk
      rw [hr'] at hr ⊢
      cases hr
      rfl
    obtain ⟨hzero, k, hk, hlast⟩ := hdown.last hpos fun k hk => by
      obtain ⟨r, hr⟩ := hall k hk
      exact ⟨r, by rw [hr]; rfl⟩
    refine ⟨hzero, k, ⟨hk, hreturned k hk 0 hlast⟩, ?_⟩
    rintro k' ⟨hk', hreturn⟩
    exact hdown.distinct k' hk' k hk 0 (by rw [hreturn]; rfl) hlast

/-- Two calls read 2, one exchange succeeds, and the other call tries again. -/
theorem checkedSub_race : ∃ tr, ∃ c : Counter Bool, Run Step (.start 2) tr c ∧
    c.calls false = .returned 1 ∧ TakesEffect tr false 1 ∧ c.value = 0 ∧
      ∃! k, k ∈ Finset.univ ∧ c.calls k = .returned 0 := by
  have hrun : Run Step (.start 2) [] (.start 2 : Counter Bool) := .start
  have hrun := (hrun.next (.begin (k := false) rfl)).next (.begin (k := true) rfl)
  have hrun := (hrun.next (.load (k := false) rfl)).next (.load (k := true) rfl)
  have hrun := (hrun.next (.check (k := false) rfl rfl)).next (.check (k := true) rfl rfl)
  have hrun := hrun.next (.exchange (k := false) rfl rfl)
  have hrun := hrun.next
    (show Step _ (.exchange true false) _ from .retry rfl (Or.inr (by decide)))
  have hrun := (hrun.next (.check (k := true) rfl rfl)).next (.exchange (k := true) rfl rfl)
  obtain ⟨-, hreturned, -, hlast⟩ := checkedSub_linearizable hrun
  refine ⟨_, _, hrun, rfl, hreturned false 1 rfl, hlast Finset.univ (by decide) rfl ?_ ?_⟩
  · simp [Throughout, TakenBy, Event.call?]
  · intro k _
    cases k
    · exact ⟨1, rfl⟩
    · exact ⟨0, rfl⟩

end ShmemUtils.Channel.CheckedSub
