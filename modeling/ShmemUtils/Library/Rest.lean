import Mathlib.Algebra.BigOperators.Group.Finset.Piecewise
import Mathlib.Algebra.Group.Action.Defs
import Mathlib.Algebra.Order.BigOperators.Group.Finset
import ShmemUtils.Library.Outline

/-!
# Coming to rest

The steps that a program takes of its own accord: nothing new is asked of it, no lock attempt and
no wait runs out of time, and nobody wakes up without a notification. A potential for the threads
that are busy falls with each such step, although a signal wakes one thread and a broadcast wakes
them all; the program then comes to rest after a bounded number of them, whatever their order. By
the lock discipline it can only be stuck at rest, with the mutex free and everybody asleep, with
nothing to do, or blocked by those who are asleep.
-/

namespace ShmemUtils.Library.Monitor

variable {T S L C I : Type}

/-! ## Steps of the program's own accord -/

/-- The action, when lock attempts have all the time they need and the environment's inputs are
those that are `inner` to the program. -/
def Action.unprompted (inner : I → Bool) : Action S L C I → Action S L C I
  | .timedLock got _ => .timedLock got got
  | .ask f => .ask fun i s => if inner i then f i s else none
  | a => a

theorem Action.goes_of_unprompted {inner : I → Bool} {s s' : S} {l' : L} {a : Action S L C I}
    (h : (a.unprompted inner).Goes s l' s') : a.Goes s l' s' := by
  cases a with
  | timedLock got timedOut => exact ⟨h.1, Or.inl (or_self_iff.mp h.2)⟩
  | ask f =>
    obtain ⟨i, hi⟩ := h
    by_cases hinner : inner i = true
    · exact ⟨i, (if_pos hinner).symm.trans hi⟩
    · cases (if_neg hinner).symm.trans hi
  | _ => exact h

theorem Action.unprompted_map {L' : Type} {inner : I → Bool} {g : L → L'} (a : Action S L C I) :
    (a.map g).unprompted inner = (a.unprompted inner).map g := by
  cases a with
  | ask f =>
    refine congrArg Action.ask (funext fun i => funext fun s => ?_)
    dsimp only
    split <;> rfl
  | _ => rfl

/-- Something is left to do that needs nothing from outside. -/
def Action.Offers (inner : I → Bool) (s : S) : Action S L C I → Prop
  | .ask f => ∃ i r, inner i = true ∧ f i s = some r
  | .halt => False
  | _ => True

theorem Action.offers_map {L' : Type} {inner : I → Bool} {s : S} {g : L → L'}
    {a : Action S L C I} : (a.map g).Offers inner s ↔ a.Offers inner s := by
  cases a with
  | ask f =>
    constructor
    · rintro ⟨i, r, hi, hr⟩
      obtain ⟨r', hr', -⟩ := Option.map_eq_some_iff.mp hr
      exact ⟨i, r', hi, hr'⟩
    · rintro ⟨i, r, hi, hr⟩
      exact ⟨i, (r.1, g r.2), hi, by simp [hr]⟩
  | _ => exact Iff.rfl

/-- How many sleepers the action can wake, of `n` threads. -/
def Action.rouses (n : ℕ) : Action S L C I → ℕ
  | .signal _ _ => 1
  | .broadcast _ _ => n
  | _ => 0

theorem Action.rouses_map {L' : Type} {n : ℕ} {g : L → L'} {a : Action S L C I} :
    (a.map g).rouses n = a.rouses n := by
  cases a <;> rfl

/-- The step needs nothing new from outside, and no time runs out. -/
def Unprompted (inner : I → Bool) (_ : Config T S L C) : Label T I → Prop
  | .run _ => True
  | .ask _ i => inner i = true
  | .notify _ _ => True
  | .expire _ => False
  | .spurious _ => False

/-- A thread that has nothing to do, whatever the data. -/
def Bystander (P : T → L → Action S L C I) (inner : I → Bool) (c : Config T S L C) (t : T) :
    Prop :=
  ∃ l, c.threads t = .running l ∧ ∀ s, ¬ (P t l).Offers inner s

section Steps

variable [DecidableEq T] [DecidableEq C] {P : T → L → Action S L C I} {inner : I → Bool}
  {c c' : Config T S L C} {i : Label T I}

/-- A thread takes no step that its action does not offer. -/
theorem Step.offers (hstep : Step P c i c') (hi : Unprompted inner c i) {l : L}
    (ht : c.threads i.mover = .running l) : (P i.mover l).Offers inner c.shared := by
  cases hstep with
  | @ask t l' l'' input s' f ht' ha hf =>
    cases ht'.symm.trans ht
    rw [Label.mover, ha]
    exact ⟨input, _, hi, hf⟩
  | notified ht' => cases ht'.symm.trans ht
  | relock ht' => cases ht'.symm.trans ht
  | timedOut ht' => cases ht'.symm.trans ht
  | spurious ht' => cases ht'.symm.trans ht
  | _ ht' ha =>
    cases ht'.symm.trans ht
    rw [Label.mover, ha]
    trivial

/-- A thread that blocks on a condition variable goes on when nobody is asleep on it. -/
theorem Step.of_drain (hstep : Step P c i c') {l next : L} {cv : C}
    (ht : c.threads i.mover = .running l) (ha : P i.mover l = .drain cv next) :
    c.waiters cv = [] := by
  cases hstep with
  | drain ht' ha' hnil =>
    cases ht'.symm.trans ht
    cases ha'.symm.trans ha
    exact hnil
  | notified ht' => cases ht'.symm.trans ht
  | relock ht' => cases ht'.symm.trans ht
  | timedOut ht' => cases ht'.symm.trans ht
  | spurious ht' => cases ht'.symm.trans ht
  | _ ht' ha' =>
    cases ht'.symm.trans ht
    cases ha'.symm.trans ha

/-- A sleeper does not wake up of its own accord. -/
theorem Step.not_asleep (hstep : Step P c i c') (hi : Unprompted inner c i) {cv : C} {next : L}
    {late : Option L} (ht : c.threads i.mover = .blocked cv next late) :
    ¬ c.Registered cv i.mover := by
  cases hstep with
  | notified ht' hnot =>
    cases ht'.symm.trans ht
    exact hnot
  | relock ht' => cases ht'.symm.trans ht
  | timedOut => exact absurd hi id
  | spurious => exact absurd hi id
  | _ ht' => cases ht'.symm.trans ht

end Steps

/-! ## The potential -/

/-- How far each of `n` threads is from its rest. An action lowers the potential of its thread by
more than it adds to the potentials of the others. -/
structure Potential (P : T → L → Action S L C I) (inner : I → Bool) (n : ℕ) where
  point : L → S → ℕ
  -- of a thread that is registered and will go on at a point
  asleep : L → ℕ
  -- what waking a sleeper adds
  wake : ℕ
  falls : ∀ {t l l' s s'}, ((P t l).unprompted inner).Goes s l' s' →
    ∃ rise, (∀ k, point k s' ≤ point k s + rise) ∧
      point l' s' + n * rise + (P t l).rouses n * wake < point l s
  sleeps : ∀ {t l cv next late s}, P t l = .wait cv next late → asleep next < point l s
  wakes : ∀ (_ : C) l s, point l s < asleep l + wake

namespace Potential

variable [DecidableEq T] {P : T → L → Action S L C I} {inner : I → Bool} {n : ℕ}
  (Q : Potential P inner n)

def of (c : Config T S L C) (t : T) : ℕ :=
  match c.threads t with
  | .running l => Q.point l c.shared
  | .blocked cv next _ => if t ∈ c.waiters cv then Q.asleep next else Q.point next c.shared + 1
  | .woken next => Q.point next c.shared + 1

variable {c c' : Config T S L C} {t u : T}

theorem of_running {l : L} (ht : c.threads t = .running l) : Q.of c t = Q.point l c.shared := by
  rw [of, ht]

theorem of_woken {next : L} (ht : c.threads t = .woken next) :
    Q.of c t = Q.point next c.shared + 1 := by
  rw [of, ht]

theorem of_registered {cv : C} {next : L} {late : Option L}
    (ht : c.threads t = .blocked cv next late) (hreg : t ∈ c.waiters cv) :
    Q.of c t = Q.asleep next := by
  rw [of, ht]
  exact if_pos hreg

theorem of_notified {cv : C} {next : L} {late : Option L}
    (ht : c.threads t = .blocked cv next late) (hreg : t ∉ c.waiters cv) :
    Q.of c t = Q.point next c.shared + 1 := by
  rw [of, ht]
  exact if_neg hreg

/-- A thread that stays where it is, registered or not, gains what the data add to its point. -/
theorem of_le_of_same {rise : ℕ} (hthreads : c'.threads u = c.threads u)
    (hwaiters : ∀ cv, u ∈ c'.waiters cv ↔ u ∈ c.waiters cv)
    (hrise : ∀ k, Q.point k c'.shared ≤ Q.point k c.shared + rise) :
    Q.of c' u ≤ Q.of c u + rise := by
  cases hu : c.threads u with
  | running l =>
    rw [Q.of_running hu, Q.of_running (hthreads.trans hu)]
    exact hrise l
  | woken next =>
    rw [Q.of_woken hu, Q.of_woken (hthreads.trans hu)]
    have := hrise next
    omega
  | blocked cv next late =>
    by_cases hreg : u ∈ c.waiters cv
    · rw [Q.of_registered hu hreg, Q.of_registered (hthreads.trans hu) ((hwaiters cv).mpr hreg)]
      exact Nat.le_add_right _ _
    · rw [Q.of_notified hu hreg, Q.of_notified (hthreads.trans hu) (mt (hwaiters cv).mp hreg)]
      have := hrise next
      omega

/-- A thread that may have been notified gains at most what waking it adds. -/
theorem of_le_of_woken (hthreads : c'.threads u = c.threads u)
    (hwaiters : ∀ cv, u ∈ c'.waiters cv → u ∈ c.waiters cv) (hshared : c'.shared = c.shared) :
    Q.of c' u ≤ Q.of c u + Q.wake := by
  cases hu : c.threads u with
  | running l =>
    rw [Q.of_running hu, Q.of_running (hthreads.trans hu), hshared]
    exact Nat.le_add_right _ _
  | woken next =>
    rw [Q.of_woken hu, Q.of_woken (hthreads.trans hu), hshared]
    exact Nat.le_add_right _ _
  | blocked cv next late =>
    have hu' := hthreads.trans hu
    by_cases hreg' : u ∈ c'.waiters cv
    · rw [Q.of_registered hu (hwaiters cv hreg'), Q.of_registered hu' hreg']
      exact Nat.le_add_right _ _
    · rw [Q.of_notified hu' hreg', hshared]
      by_cases hreg : u ∈ c.waiters cv
      · rw [Q.of_registered hu hreg]
        exact Q.wakes cv next c.shared
      · rw [Q.of_notified hu hreg]
        exact Nat.le_add_right _ _

def total (ts : Finset T) (c : Config T S L C) : ℕ := ∑ t ∈ ts, Q.of c t

variable {ts : Finset T}

/-- The mover loses more than the others gain. -/
theorem total_lt (rise : ℕ) (extra : T → ℕ) (ht : t ∈ ts) (hcard : ts.card ≤ n)
    (hothers : ∀ u, u ≠ t → Q.of c' u ≤ Q.of c u + rise + extra u)
    (hself : Q.of c' t + n * rise + ∑ u ∈ ts, extra u < Q.of c t) :
    Q.total ts c' < Q.total ts c := by
  have hrest : ∑ u ∈ ts.erase t, Q.of c' u ≤
      ∑ u ∈ ts.erase t, Q.of c u + n * rise + ∑ u ∈ ts, extra u := by
    have hle : (ts.erase t).card * rise ≤ n * rise :=
      Nat.mul_le_mul_right rise ((Finset.card_erase_le).trans hcard)
    have hextra : ∑ u ∈ ts.erase t, extra u ≤ ∑ u ∈ ts, extra u :=
      Finset.sum_le_sum_of_subset (Finset.erase_subset t ts)
    calc ∑ u ∈ ts.erase t, Q.of c' u
        ≤ ∑ u ∈ ts.erase t, (Q.of c u + rise + extra u) :=
          Finset.sum_le_sum fun u hu => hothers u (Finset.ne_of_mem_erase hu)
      _ = ∑ u ∈ ts.erase t, Q.of c u + (ts.erase t).card * rise + ∑ u ∈ ts.erase t, extra u := by
          simp only [Finset.sum_add_distrib, Finset.sum_const, smul_eq_mul]
      _ ≤ ∑ u ∈ ts.erase t, Q.of c u + n * rise + ∑ u ∈ ts, extra u := by omega
  have hsplit := Finset.add_sum_erase ts (Q.of c) ht
  have hsplit' := Finset.add_sum_erase ts (Q.of c') ht
  simp only [total]
  omega

/-- A step that leaves the lists of waiters alone. -/
private theorem total_lt_of_goes {l l' : L} (ht : t ∈ ts) (hcard : ts.card ≤ n)
    (hl : c.threads t = .running l) (hgoes : ((P t l).unprompted inner).Goes c.shared l' c'.shared)
    (hthreads : ∀ u, u ≠ t → c'.threads u = c.threads u) (hl' : c'.threads t = .running l')
    (hwaiters : c'.waiters = c.waiters) : Q.total ts c' < Q.total ts c := by
  obtain ⟨rise, hrise, hlt⟩ := Q.falls hgoes
  refine Q.total_lt rise (fun _ => 0) ht hcard (fun u hu => ?_) ?_
  · exact Q.of_le_of_same (hthreads u hu) (fun cv => by rw [hwaiters]) hrise
  · rw [Q.of_running hl, Q.of_running hl', Finset.sum_const_zero]
    omega

/-- A thread that goes on after its wait. -/
private theorem total_lt_of_wakes {next : L} (ht : t ∈ ts) (hcard : ts.card ≤ n)
    (hself : Q.of c t = Q.point next c.shared + 1) (hshared : c'.shared = c.shared)
    (hthreads : ∀ u, u ≠ t → c'.threads u = c.threads u) (hl' : c'.threads t = .running next)
    (hwaiters : c'.waiters = c.waiters) : Q.total ts c' < Q.total ts c := by
  refine Q.total_lt 0 (fun _ => 0) ht hcard (fun u hu => ?_) ?_
  · exact Q.of_le_of_same (hthreads u hu) (fun cv => by rw [hwaiters]) fun k => by rw [hshared]; rfl
  · rw [hself, Q.of_running hl', hshared, Finset.sum_const_zero]
    omega

variable [DecidableEq C]

/-- **The potential falls** with every step that the program takes of its own accord. -/
theorem total_lt_of_step {i : Label T I} (hcard : ts.card ≤ n) (hmover : i.mover ∈ ts)
    (hi : Unprompted inner c i) (hstep : Step P c i c') : Q.total ts c' < Q.total ts c := by
  have hothers := fun u (hu : u ≠ i.mover) => hstep.others hu
  cases hstep with
  | atomic hl ha =>
    exact Q.total_lt_of_goes hmover hcard hl (by rw [Label.mover, ha]; rfl) hothers
      (Config.goto_threads_self _ _ _) rfl
  | @ask t l l' input s' f hl ha hf =>
    refine Q.total_lt_of_goes hmover hcard hl ?_ hothers (Config.goto_threads_self _ _ _) rfl
    rw [Label.mover, ha]
    exact ⟨input, (if_pos hi).trans hf⟩
  | tryLock hl ha =>
    exact Q.total_lt_of_goes hmover hcard hl (by rw [Label.mover, ha]; exact ⟨rfl, Or.inl rfl⟩)
      hothers (Config.goto_threads_self _ _ _) rfl
  | tryLockBusy hl ha =>
    exact Q.total_lt_of_goes hmover hcard hl (by rw [Label.mover, ha]; exact ⟨rfl, Or.inr rfl⟩)
      hothers (Config.goto_threads_self _ _ _) rfl
  | timedLock hl ha =>
    exact Q.total_lt_of_goes hmover hcard hl (by rw [Label.mover, ha]; exact ⟨rfl, Or.inl rfl⟩)
      hothers (Config.goto_threads_self _ _ _) rfl
  | timedLockExpired => exact absurd hi id
  | unlock hl ha =>
    exact Q.total_lt_of_goes hmover hcard hl (by rw [Label.mover, ha]; exact ⟨rfl, rfl⟩)
      hothers (Config.goto_threads_self _ _ _) rfl
  | drain hl ha =>
    exact Q.total_lt_of_goes hmover hcard hl (by rw [Label.mover, ha]; exact ⟨rfl, rfl⟩)
      hothers (Config.goto_threads_self _ _ _) rfl
  | probe hl ha =>
    refine Q.total_lt_of_goes hmover hcard hl ?_ hothers (Config.goto_threads_self _ _ _) rfl
    rw [Label.mover, ha]
    refine ⟨rfl, ?_⟩
    split
    · exact Or.inl rfl
    · exact Or.inr rfl
  | signalNobody hl ha =>
    exact Q.total_lt_of_goes hmover hcard hl (by rw [Label.mover, ha]; exact ⟨rfl, rfl⟩)
      hothers (Config.goto_threads_self _ _ _) rfl
  | @wait t l next cv late hl ha =>
    refine Q.total_lt 0 (fun _ => 0) hmover hcard (fun u hu => ?_) ?_
    · refine Q.of_le_of_same (hothers u hu) (fun cv' => ?_) fun k => le_rfl
      by_cases hcv : cv' = cv
      · subst hcv
        simpa [Label.mover] using fun heq : u = t => absurd heq hu
      · rw [Config.goto_waiters, Config.setWaiters_waiters_of_ne hcv]
    · -- the mover is registered now
      have hreg : t ∈ (({ c with owner := none, waiting := t :: c.waiting }.setWaiters cv
          (c.waiters cv ++ [t])).goto t (.blocked cv next late)).waiters cv := by simp
      rw [Label.mover, Q.of_running hl, Q.of_registered (Config.goto_threads_self _ _ _) hreg,
        Finset.sum_const_zero]
      have := Q.sleeps ha (s := c.shared)
      omega
  | @signal t u₀ l next cv hl ha hu₀ =>
    -- one thread is woken
    have hgoes : ((P t l).unprompted inner).Goes c.shared next c.shared := by
      rw [ha]
      exact ⟨rfl, rfl⟩
    obtain ⟨rise, -, hlt⟩ := Q.falls hgoes
    rw [ha, Action.rouses, one_mul] at hlt
    refine Q.total_lt 0 (fun u => if u = u₀ then Q.wake else 0) hmover hcard
      (fun u hu => ?_) ?_
    · by_cases heq : u = u₀
      · rw [if_pos heq]
        refine Q.of_le_of_woken (hothers u hu) (fun cv' hcv' => ?_) rfl
        by_cases hcv : cv' = cv
        · subst hcv
          rw [Config.goto_waiters, Config.setWaiters_waiters_self] at hcv'
          exact (List.mem_filter.mp hcv').1
        · rwa [Config.goto_waiters, Config.setWaiters_waiters_of_ne hcv] at hcv'
      · refine (Q.of_le_of_same (hothers u hu) (fun cv' => ?_) fun k => le_rfl).trans
          (Nat.le_add_right _ _)
        by_cases hcv : cv' = cv
        · subst hcv
          simp [heq]
        · rw [Config.goto_waiters, Config.setWaiters_waiters_of_ne hcv]
    · have hsum : ∑ u ∈ ts, (if u = u₀ then Q.wake else 0) ≤ Q.wake := by
        rw [Finset.sum_ite_eq']
        split <;> omega
      rw [Label.mover, Q.of_running hl, Q.of_running (Config.goto_threads_self _ _ _)]
      simp only [Config.goto_shared, Config.setWaiters_shared]
      omega
  | @broadcast t l next cv hl ha =>
    have hgoes : ((P t l).unprompted inner).Goes c.shared next c.shared := by
      rw [ha]
      exact ⟨rfl, rfl⟩
    obtain ⟨rise, -, hlt⟩ := Q.falls hgoes
    rw [ha, Action.rouses] at hlt
    refine Q.total_lt 0 (fun _ => Q.wake) hmover hcard (fun u hu => ?_) ?_
    · refine Q.of_le_of_woken (hothers u hu) (fun cv' hcv' => ?_) rfl
      by_cases hcv : cv' = cv
      · subst hcv
        simp at hcv'
      · rwa [Config.goto_waiters, Config.setWaiters_waiters_of_ne hcv] at hcv'
    · have hsum : ∑ _u ∈ ts, Q.wake ≤ n * Q.wake := by
        rw [Finset.sum_const, smul_eq_mul]
        exact Nat.mul_le_mul_right _ hcard
      rw [Label.mover, Q.of_running hl, Q.of_running (Config.goto_threads_self _ _ _)]
      simp only [Config.goto_shared, Config.setWaiters_shared]
      omega
  | @notified t cv next late hl hnot =>
    exact Q.total_lt_of_wakes hmover hcard (Q.of_notified hl hnot) rfl hothers
      (Config.goto_threads_self _ _ _) rfl
  | relock hl =>
    exact Q.total_lt_of_wakes hmover hcard (Q.of_woken hl) rfl hothers
      (Config.goto_threads_self _ _ _) rfl
  | timedOut => exact absurd hi id
  | spurious => exact absurd hi id

/-! ## Rest -/

/-- **Every run of such steps is short**: each takes at least one from the potential, and whoever is
outside of `ts` has nothing to do and stays where it is. -/
theorem length_le {tr : List (Config T S L C × Label T I)} (hcard : ts.card ≤ n)
    (hts : ∀ t, t ∉ ts → Bystander P inner c t) (hrun : Run (Step P) c tr c')
    (htr : Throughout (Unprompted inner) tr) :
    tr.length + Q.total ts c' ≤ Q.total ts c ∧ ∀ t, t ∉ ts → Bystander P inner c' t := by
  induction hrun with
  | start => exact ⟨(Nat.zero_add _).le, hts⟩
  | @next tr c₁ c₂ i hprev hstep ih =>
    obtain ⟨hi, htail⟩ := throughout_cons.mp htr
    obtain ⟨hlength, hby⟩ := ih htail
    -- the step is not one of a bystander
    have hmover : i.mover ∈ ts := by
      by_contra hnot
      obtain ⟨l, hl, hoffers⟩ := hby i.mover hnot
      exact hoffers c₁.shared (hstep.offers hi hl)
    have hlt := Q.total_lt_of_step hcard hmover hi hstep
    refine ⟨?_, fun t ht => ?_⟩
    · rw [List.length_cons]
      omega
    · obtain ⟨l, hl, hoffers⟩ := hby t ht
      have hne : t ≠ i.mover := fun heq => ht (heq ▸ hmover)
      exact ⟨l, (hstep.others hne).trans hl, hoffers⟩

end Potential

/-- The mutex is free, and every thread has nothing to do, is asleep, or blocks on a condition
variable on which somebody is asleep. -/
structure AtRest (P : T → L → Action S L C I) (inner : I → Bool) (c : Config T S L C) : Prop where
  free : c.owner = none
  thread : ∀ t, (∃ l, c.threads t = .running l ∧ (¬ (P t l).Offers inner c.shared ∨
      ∃ cv next, P t l = .drain cv next ∧ c.waiters cv ≠ [])) ∨
    ∃ cv next late, c.threads t = .blocked cv next late ∧ c.Registered cv t

section Progress

variable [DecidableEq T] [DecidableEq C] {P : T → L → Action S L C I} {inner : I → Bool}
  {holding : L → Bool} {c c' : Config T S L C} {t : T} {l : L}

/-- What a program offers can be taken, unless it is a lock that somebody else holds, or needs a
condition variable on which somebody is asleep. -/
theorem exists_unprompted (hexcl : Exclusive holding c) (hP : Disciplined P holding)
    (ht : c.threads t = .running l) (hoffers : (P t l).Offers inner c.shared)
    (hfree : holding l = false → c.owner = none)
    (hnobody : ∀ cv next, P t l = .drain cv next → c.waiters cv = []) :
    ∃ i c', Unprompted inner c i ∧ Step P c i c' := by
  have howner := (hexcl.of_running ht).1
  cases ha : P t l with
  | atomic f => exact ⟨.run t, _, trivial, .atomic ht ha⟩
  | ask f =>
    rw [ha] at hoffers
    obtain ⟨input, r, hinner, hr⟩ := hoffers
    exact ⟨.ask t input, _, hinner, .ask ht ha hr⟩
  | tryLock got busy => exact ⟨.run t, _, trivial, .tryLock ht ha (hfree (hP.respects ha).1)⟩
  | timedLock got timedOut =>
    exact ⟨.run t, _, trivial, .timedLock ht ha (hfree (hP.respects ha).1)⟩
  | unlock next => exact ⟨.run t, _, trivial, .unlock ht ha (howner.mpr (hP.respects ha).1)⟩
  | probe free busy => exact ⟨.run t, _, trivial, .probe ht ha⟩
  | wait cv next late =>
    exact ⟨.run t, _, trivial, .wait ht ha (howner.mpr (hP.respects ha).1)⟩
  | signal cv next =>
    by_cases hnil : c.waiters cv = []
    · exact ⟨.run t, _, trivial, .signalNobody ht ha hnil⟩
    · obtain ⟨u, hu⟩ := List.exists_mem_of_ne_nil _ hnil
      exact ⟨.notify t u, _, trivial, .signal ht ha hu⟩
  | broadcast cv next => exact ⟨.run t, _, trivial, .broadcast ht ha⟩
  | drain cv next => exact ⟨.run t, _, trivial, .drain ht ha (hnobody cv next ha)⟩
  | halt =>
    rw [ha] at hoffers
    exact absurd hoffers id

/-- **A program is stuck only at rest**, when whoever holds the mutex is offered a step. -/
theorem atRest_iff_stuck (hexcl : Exclusive holding c) (hP : Disciplined P holding)
    (hheld : ∀ t l, c.threads t = .running l → holding l = true →
      (P t l).Offers inner c.shared) :
    AtRest P inner c ↔ ∀ i c', Unprompted inner c i → ¬ Step P c i c' := by
  constructor
  · intro h i c' hi hstep
    rcases h.thread i.mover with ⟨l, hl, hnot | ⟨cv, next, ha, hne⟩⟩ | ⟨cv, next, late, hb, hreg⟩
    · exact hnot (hstep.offers hi hl)
    · exact hne (hstep.of_drain hl ha)
    · exact hstep.not_asleep hi hb hreg
  · intro hstuck
    -- the owner could go on
    have hfree : c.owner = none := by
      by_contra hne
      obtain ⟨t, ht⟩ := Option.ne_none_iff_exists'.mp hne
      obtain ⟨l, hl, hholding⟩ := hexcl.exists_running ht
      obtain ⟨i, c', hi, hstep⟩ := exists_unprompted hexcl hP hl (hheld t l hl hholding)
        (fun hnot => by rw [hholding] at hnot; cases hnot) fun cv next ha => by
          have hnot := (hP.respects ha).1
          rw [hholding] at hnot
          cases hnot
      exact hstuck i c' hi hstep
    refine ⟨hfree, fun t => ?_⟩
    cases ht : c.threads t with
    | running l =>
      refine Or.inl ⟨l, rfl, or_iff_not_imp_right.mpr fun hnobody hoffers => ?_⟩
      obtain ⟨i, c', hi, hstep⟩ := exists_unprompted hexcl hP ht hoffers (fun _ => hfree)
        fun cv next ha => by_contra fun hne => hnobody ⟨cv, next, ha, hne⟩
      exact hstuck i c' hi hstep
    | blocked cv next late =>
      refine Or.inr ⟨cv, next, late, rfl, ?_⟩
      by_contra hnot
      exact hstuck (.run t) _ trivial (.notified ht hnot hfree)
    | woken next => exact absurd (.relock ht hfree) (hstuck (.run t) _ trivial)

end Progress

end ShmemUtils.Library.Monitor
