import ShmemUtils.Library.Monitor

/-!
# Proof outlines

Two rules for programs of the monitor. The lock discipline: when the program points say whether the
mutex is held there and every action respects it, at most one thread is at a holding point. The
outline rule: an assertion at each point and one for sleepers are invariant when each action
establishes what comes next, and when no action of another thread falsifies an assertion, where two
threads at holding points need not be considered.
-/

namespace ShmemUtils.Library.Monitor

variable {T S L C I : Type}

/-! ## The lock discipline -/

/-- The action takes and releases the mutex as the points before and after it say. -/
def Action.Respects (holding : L → Bool) (held : Bool) : Action S L C I → Prop
  | .atomic f => ∀ s, holding (f s).2 = held
  | .ask f => ∀ i s r, f i s = some r → holding r.2 = held
  | .tryLock got busy => held = false ∧ holding got = true ∧ holding busy = false
  | .timedLock got timedOut => held = false ∧ holding got = true ∧ holding timedOut = false
  | .unlock next => held = true ∧ holding next = false
  | .probe free busy => holding free = held ∧ holding busy = held
  | .wait _ next late => held = true ∧ holding next = true ∧ ∀ l ∈ late, holding l = true
  | .signal _ next => holding next = held
  | .broadcast _ next => holding next = held
  -- a thread must not hold the mutex while it blocks on those who need it
  | .drain _ next => held = false ∧ holding next = false
  | .halt => True

attribute [simp] Action.Respects.eq_1 Action.Respects.eq_2 Action.Respects.eq_3
  Action.Respects.eq_4 Action.Respects.eq_5 Action.Respects.eq_6 Action.Respects.eq_7
  Action.Respects.eq_8 Action.Respects.eq_9 Action.Respects.eq_10 Action.Respects.eq_11

theorem Action.respects_map {L' : Type} {holding : L' → Bool} {held : Bool} {g : L → L'}
    {a : Action S L C I} :
    (a.map g).Respects holding held ↔ a.Respects (fun l => holding (g l)) held := by
  cases a with
  | ask f =>
    constructor
    · intro h i s r hr
      exact h i s (r.1, g r.2) (by simp [hr])
    · rintro h i s r hr
      obtain ⟨r', hr', rfl⟩ := Option.map_eq_some_iff.mp hr
      exact h i s r' hr'
  | wait cv next late => cases late <;> simp [Action.map]
  | _ => exact Iff.rfl

/-- Every action of the program respects the lock. -/
def Disciplined (P : T → L → Action S L C I) (holding : L → Bool) : Prop :=
  ∀ t l, (P t l).Respects holding (holding l)

/-- Where a thread is agrees with whether it owns the mutex and where it is registered. -/
def Thread.Agrees (holding : L → Bool) (owns : Prop) (registered : C → Prop) : Thread L C → Prop
  | .running l => (owns ↔ holding l = true) ∧ ∀ cv, ¬ registered cv
  | .blocked cv next late => ¬ owns ∧ (holding next = true ∧ ∀ l ∈ late, holding l = true) ∧
      ∀ cv', registered cv' → cv' = cv
  | .woken next => ¬ owns ∧ holding next = true ∧ ∀ cv, ¬ registered cv

/-- All threads agree with the mutex and the lists of waiters, so at most one is at a holding
point. -/
def Exclusive (holding : L → Bool) (c : Config T S L C) : Prop :=
  ∀ t, (c.threads t).Agrees holding (c.owner = some t) fun cv => c.Registered cv t

/-- No two threads are at points that are `apart`. -/
def Apart (apart : L → L → Prop) (c : Config T S L C) : Prop :=
  ∀ {t u l l'}, u ≠ t → c.threads t = .running l → c.threads u = .running l' → ¬ apart l l'

section Discipline

variable {P : T → L → Action S L C I} {holding : L → Bool} {c c' : Config T S L C} {t u : T}
  {l l' : L}

theorem Disciplined.respects (hP : Disciplined P holding) {a : Action S L C I} (ha : P t l = a) :
    a.Respects holding (holding l) := by
  rw [← ha]
  exact hP t l

/-- When the owner gives the mutex up, nobody else owns more or less than before. -/
private theorem free_iff_of_owner (hown : c.owner = some t) (hu : u ≠ t) :
    none = some u ↔ c.owner = some u := by
  rw [hown]
  constructor
  · intro heq
    cases heq
  · intro heq
    exact absurd (Option.some.inj heq).symm hu

theorem Exclusive.of_running (h : Exclusive holding c) (ht : c.threads t = .running l) :
    (c.owner = some t ↔ holding l = true) ∧ ∀ cv, ¬ c.Registered cv t := by
  have := h t
  rwa [ht] at this

theorem Exclusive.of_blocked (h : Exclusive holding c) {cv : C} {k : L} {late : Option L}
    (ht : c.threads t = .blocked cv k late) :
    c.owner ≠ some t ∧ (holding k = true ∧ ∀ l ∈ late, holding l = true) ∧
      ∀ cv', c.Registered cv' t → cv' = cv := by
  have := h t
  rwa [ht] at this

theorem Exclusive.of_woken (h : Exclusive holding c) {k : L} (ht : c.threads t = .woken k) :
    c.owner ≠ some t ∧ holding k = true ∧ ∀ cv, ¬ c.Registered cv t := by
  have := h t
  rwa [ht] at this

/-- The owner of the mutex is at a holding point. -/
theorem Exclusive.exists_running (h : Exclusive holding c) (ht : c.owner = some t) :
    ∃ l, c.threads t = .running l ∧ holding l = true := by
  cases hth : c.threads t with
  | running l => exact ⟨l, rfl, (h.of_running hth).1.mp ht⟩
  | blocked cv k late => exact absurd ht (h.of_blocked hth).1
  | woken k => exact absurd ht (h.of_woken hth).1

/-- When every thread is running, nobody is registered. -/
theorem Exclusive.waiters_eq_nil (h : Exclusive holding c)
    (hall : ∀ t, ∃ l, c.threads t = .running l) (cv : C) : c.waiters cv = [] := by
  refine List.eq_nil_iff_forall_not_mem.mpr fun t ht => ?_
  obtain ⟨l, hl⟩ := hall t
  exact (h.of_running hl).2 cv ht

/-- **Mutual exclusion.** -/
theorem Exclusive.apart (h : Exclusive holding c) :
    Apart (fun l l' => holding l = true ∧ holding l' = true) c := by
  rintro t u l l' hne ht hu ⟨hl, hl'⟩
  have howner := (h.of_running ht).1.mpr hl
  rw [(h.of_running hu).1.mpr hl'] at howner
  exact hne (Option.some.inj howner)

/-- A move of one thread: the others stay where they are, and gain neither the mutex nor a
registration. -/
private theorem Exclusive.of_move (h : Exclusive holding c)
    (hthreads : ∀ u, u ≠ t → c'.threads u = c.threads u)
    (howner : ∀ u, u ≠ t → (c'.owner = some u ↔ c.owner = some u))
    (hwaiters : ∀ cv u, u ≠ t → c'.Registered cv u → c.Registered cv u)
    (hself : (c'.threads t).Agrees holding (c'.owner = some t) fun cv => c'.Registered cv t) :
    Exclusive holding c' := by
  intro u
  by_cases hu : u = t
  · subst hu
    exact hself
  have hagrees := h u
  rw [hthreads u hu]
  cases hth : c.threads u with
  | running l =>
    rw [hth] at hagrees
    exact ⟨(howner u hu).trans hagrees.1, fun cv hcv => hagrees.2 cv (hwaiters cv u hu hcv)⟩
  | blocked cv k late =>
    rw [hth] at hagrees
    exact ⟨fun hown => hagrees.1 ((howner u hu).mp hown), hagrees.2.1,
      fun cv' hcv => hagrees.2.2 cv' (hwaiters cv' u hu hcv)⟩
  | woken k =>
    rw [hth] at hagrees
    exact ⟨fun hown => hagrees.1 ((howner u hu).mp hown), hagrees.2.1,
      fun cv hcv => hagrees.2.2 cv (hwaiters cv u hu hcv)⟩

section Moves

variable [DecidableEq T]

/-- A move that leaves the mutex and the waiters alone. -/
private theorem Exclusive.goto (h : Exclusive holding c) {s : S}
    (ht : c.threads t = .running l) (hl : holding l' = holding l) :
    Exclusive holding ({ c with shared := s }.goto t (.running l')) := by
  refine h.of_move (t := t) (fun u hu => Config.goto_threads_of_ne hu) (fun _ _ => Iff.rfl)
    (fun _ _ _ hcv => hcv) ?_
  rw [Config.goto_threads_self]
  obtain ⟨howner, hfree⟩ := h.of_running ht
  exact ⟨by rw [hl]; exact howner, hfree⟩

/-- A thread that is not registered takes the free mutex. -/
private theorem Exclusive.acquire (h : Exclusive holding c) (hfree : c.owner = none)
    (hwaiters : ∀ cv, ¬ c.Registered cv t) (hl : holding l = true) :
    Exclusive holding ({ c with owner := some t }.goto t (.running l)) := by
  refine h.of_move (t := t) (fun u hu => Config.goto_threads_of_ne hu) ?_
    (fun _ _ _ hcv => hcv) ?_
  · intro u hu
    simp only [Config.goto_owner, hfree, Option.some.injEq]
    exact ⟨fun heq => absurd heq.symm hu, fun heq => by cases heq⟩
  · rw [Config.goto_threads_self]
    exact ⟨⟨fun _ => hl, fun _ => rfl⟩, hwaiters⟩

end Moves

variable [DecidableEq T] [DecidableEq C]

/-- Fewer waiters, while the moving thread stays at points of the same kind. -/
private theorem Exclusive.setWaiters (h : Exclusive holding c) {cv : C} {ts : List T}
    (hts : ∀ u ∈ ts, u ∈ c.waiters cv) (ht : c.threads t = .running l)
    (hl : holding l' = holding l) :
    Exclusive holding ((c.setWaiters cv ts).goto t (.running l')) := by
  have hsub : ∀ cv' u, (c.setWaiters cv ts).Registered cv' u → c.Registered cv' u := by
    intro cv' u hu
    by_cases hcv : cv' = cv
    · subst hcv
      simp only [Config.Registered, Config.setWaiters_waiters_self] at hu
      exact hts u hu
    · simpa only [Config.Registered, Config.setWaiters_waiters_of_ne hcv] using hu
  refine h.of_move (t := t) (fun u hu => Config.goto_threads_of_ne hu) (fun _ _ => Iff.rfl)
    (fun cv' u _ hcv => hsub cv' u hcv) ?_
  rw [Config.goto_threads_self]
  obtain ⟨howner, hfree⟩ := h.of_running ht
  exact ⟨by rw [hl]; exact howner, fun cv' hcv => hfree cv' (hsub cv' t hcv)⟩

/-- Out of the waiters, without the mutex. -/
private theorem Exclusive.leave (h : Exclusive holding c) {cv : C} {k k' : L} {late : Option L}
    (ht : c.threads t = .blocked cv k late) (hk : holding k' = true) :
    Exclusive holding
      ((c.setWaiters cv ((c.waiters cv).filter (· ≠ t))).goto t (.woken k')) := by
  obtain ⟨hown, -, honly⟩ := h.of_blocked ht
  refine h.of_move (t := t) (fun u hu => Config.goto_threads_of_ne hu) (fun _ _ => Iff.rfl) ?_ ?_
  · intro cv' u _ hu
    by_cases hcv : cv' = cv
    · subst hcv
      simp only [Config.Registered, Config.goto_waiters, Config.setWaiters_waiters_self] at hu
      exact (List.mem_filter.mp hu).1
    · simpa only [Config.Registered, Config.goto_waiters, Config.setWaiters_waiters_of_ne hcv]
        using hu
  · rw [Config.goto_threads_self]
    refine ⟨hown, hk, fun cv' hcv' => ?_⟩
    by_cases hcv : cv' = cv
    · subst hcv
      simp [Config.Registered] at hcv'
    · simp only [Config.Registered, Config.goto_waiters, Config.setWaiters_waiters_of_ne hcv]
        at hcv'
      exact hcv (honly cv' hcv')

/-- **The lock discipline is kept by every step.** -/
theorem Exclusive.step (h : Exclusive holding c) (hP : Disciplined P holding) {i : Label T I}
    (hstep : Step P c i c') : Exclusive holding c' := by
  cases hstep with
  | @atomic t l f ht ha =>
    have hl := hP.respects ha
    exact h.goto ht (hl c.shared)
  | @ask t l l' i s' f ht ha hf =>
    have hl := hP.respects ha
    exact h.goto ht (hl i c.shared (s', l') hf)
  | @tryLock t l got busy ht ha hfree =>
    have hl := hP.respects ha
    exact h.acquire hfree (h.of_running ht).2 hl.2.1
  | @tryLockBusy t l got busy ht ha hheld =>
    have hl := hP.respects ha
    exact h.goto ht (hl.2.2.trans hl.1.symm)
  | @timedLock t l got timedOut ht ha hfree =>
    have hl := hP.respects ha
    exact h.acquire hfree (h.of_running ht).2 hl.2.1
  | @timedLockExpired t l got timedOut ht ha hheld =>
    have hl := hP.respects ha
    exact h.goto ht (hl.2.2.trans hl.1.symm)
  | @unlock t l k ht ha hown =>
    have hl := hP.respects ha
    refine h.of_move (t := t) (fun u hu => Config.goto_threads_of_ne hu) ?_
      (fun _ _ _ hcv => hcv) ?_
    · exact fun u hu => free_iff_of_owner hown hu
    · rw [Config.goto_threads_self]
      refine ⟨⟨fun heq => ?_, fun heq => ?_⟩, (h.of_running ht).2⟩
      · cases heq
      · rw [hl.2] at heq
        cases heq
  | @probe t l free busy ht ha =>
    have hl := hP.respects ha
    refine h.goto ht ?_
    split
    · exact hl.1
    · exact hl.2
  | @drain t l k cv ht ha hnil =>
    have hl := hP.respects ha
    exact h.goto ht (hl.2.trans hl.1.symm)
  | @wait t l k cv late ht ha hown =>
    have hl := hP.respects ha
    refine h.of_move (t := t) (fun u hu => Config.goto_threads_of_ne hu) ?_ ?_ ?_
    · exact fun u hu => free_iff_of_owner hown hu
    · intro cv' u hu hcv'
      by_cases hcv : cv' = cv
      · subst hcv
        simp only [Config.Registered, Config.goto_waiters, Config.setWaiters_waiters_self,
          List.mem_append, List.mem_singleton] at hcv'
        exact hcv'.resolve_right hu
      · simpa only [Config.Registered, Config.goto_waiters, Config.setWaiters_waiters_of_ne hcv]
          using hcv'
    · rw [Config.goto_threads_self]
      refine ⟨fun heq => ?_, hl.2, fun cv' hcv' => ?_⟩
      · cases heq
      · by_contra hcv
        simp only [Config.Registered, Config.goto_waiters, Config.setWaiters_waiters_of_ne hcv]
          at hcv'
        exact (h.of_running ht).2 cv' hcv'
  | @signalNobody t l k cv ht ha hnil =>
    have hl := hP.respects ha
    exact h.goto ht hl
  | @signal t u l k cv ht ha hu =>
    have hl := hP.respects ha
    exact h.setWaiters (fun _ hv => (List.mem_filter.mp hv).1) ht hl
  | @broadcast t l k cv ht ha =>
    have hl := hP.respects ha
    exact h.setWaiters (fun _ hv => by cases hv) ht hl
  | @notified t cv k late ht hnot hfree =>
    obtain ⟨-, hk, honly⟩ := h.of_blocked ht
    refine h.acquire hfree (fun cv' hcv' => hnot ?_) hk.1
    -- a thread that is registered nowhere else has left the only list it was in
    rw [← honly cv' hcv']
    exact hcv'
  | @relock t k ht hfree =>
    obtain ⟨-, hk, hnone⟩ := h.of_woken ht
    exact h.acquire hfree hnone hk
  | @timedOut t cv k late ht hmem => exact h.leave ht ((h.of_blocked ht).2.1.2 late rfl)
  | @spurious t cv k late ht hmem => exact h.leave ht (h.of_blocked ht).2.1.1

end Discipline

/-! ## Who is inside a wait -/

/-- The threads inside a wait are those that are not running. -/
def Counted (c : Config T S L C) : Prop :=
  ∀ t, t ∈ c.waiting ↔ ∀ l, c.threads t ≠ .running l

section Counted

variable [DecidableEq T] {P : T → L → Action S L C I} {c c' : Config T S L C}
  {t : T}

/-- A thread that runs before and after its move. -/
private theorem Counted.goto {c₁ : Config T S L C} (h : Counted c) {l l' : L}
    (hwaiting : c₁.waiting = c.waiting) (hthreads : c₁.threads = c.threads)
    (ht : c.threads t = .running l) : Counted (c₁.goto t (.running l')) := by
  intro u
  rw [Config.goto_waiting, hwaiting, h u]
  by_cases hu : u = t
  · subst hu
    rw [Config.goto_threads_self, ht]
    exact iff_of_false (fun hall => hall l rfl) fun hall => hall l' rfl
  · rw [Config.goto_threads_of_ne hu, hthreads]

/-- A thread that is inside a wait before and after its move. -/
private theorem Counted.stays {c₁ : Config T S L C} (h : Counted c) {th : Thread L C}
    (hwaiting : c₁.waiting = c.waiting) (hthreads : c₁.threads = c.threads)
    (ht : ∀ l, c.threads t ≠ .running l) (hth : ∀ l, th ≠ .running l) :
    Counted (c₁.goto t th) := by
  intro u
  rw [Config.goto_waiting, hwaiting, h u]
  by_cases hu : u = t
  · subst hu
    rw [Config.goto_threads_self]
    exact iff_of_true ht hth
  · rw [Config.goto_threads_of_ne hu, hthreads]

/-- A thread that has the mutex back. -/
private theorem Counted.returns {c₁ : Config T S L C} (h : Counted c) {l : L}
    (hwaiting : c₁.waiting = c.waiting.filter (· ≠ t)) (hthreads : c₁.threads = c.threads) :
    Counted (c₁.goto t (.running l)) := by
  intro u
  rw [Config.goto_waiting, hwaiting]
  by_cases hu : u = t
  · subst hu
    simp
  · simp [Config.goto_threads_of_ne hu, hthreads, hu, h u]

theorem Counted.step [DecidableEq C] {i : Label T I} (h : Counted c) (hstep : Step P c i c') :
    Counted c' := by
  cases hstep with
  | @wait t l next cv late ht ha hown =>
    intro u
    rw [Config.goto_waiting, Config.setWaiters_waiting, List.mem_cons, h u]
    by_cases hu : u = t
    · subst hu
      simp
    · rw [Config.goto_threads_of_ne hu, Config.setWaiters_threads]
      exact or_iff_right hu
  | notified => exact h.returns rfl rfl
  | relock => exact h.returns rfl rfl
  | timedOut ht => exact h.stays (by rfl) (by rfl) (by simp [ht]) (by simp)
  | spurious ht => exact h.stays (by rfl) (by rfl) (by simp [ht]) (by simp)
  | _ ht => exact h.goto (by rfl) (by rfl) ht

omit [DecidableEq T] in
/-- When every thread is running, nobody uses the mutex but its owner. -/
theorem Counted.waiting_eq_nil (h : Counted c) (hall : ∀ t, ∃ l, c.threads t = .running l) :
    c.waiting = [] := by
  refine List.eq_nil_iff_forall_not_mem.mpr fun t ht => ?_
  obtain ⟨l, hl⟩ := hall t
  exact (h t).mp ht l hl

end Counted

/-! ## Where a thread comes from -/

/-- With the data `s`, and the mutex in use or not, the action can lead to the point. -/
def Action.Leads (s : S) (free : Bool) (l' : L) : Action S L C I → Prop
  | .atomic f => (f s).2 = l'
  | .ask f => ∃ i s', f i s = some (s', l')
  | .tryLock got busy => got = l' ∨ busy = l'
  | .timedLock got timedOut => got = l' ∨ timedOut = l'
  | .unlock next => next = l'
  | .probe yes no => (if free then yes else no) = l'
  | .wait _ _ _ => False
  | .signal _ next => next = l'
  | .broadcast _ next => next = l'
  | .drain _ next => next = l'
  | .halt => False

/-- A thread that is at a point after a step was there before, or came there by its own action, or
woke up there. -/
theorem Step.arrives [DecidableEq T] [DecidableEq C] {P : T → L → Action S L C I}
    {c c' : Config T S L C} {i : Label T I} (hstep : Step P c i c') {u : T} {l' : L}
    (hu : c'.threads u = .running l') :
    c.threads u = .running l' ∨
      (∃ l, c.threads u = .running l ∧ (P u l).Leads c.shared c.unused l') ∨
      (∃ cv late, c.threads u = .blocked cv l' late) ∨ c.threads u = .woken l' := by
  -- only the thread that moves changes its place
  have hmove : ∀ {c₁ : Config T S L C} {t : T} {th : Thread L C}, c₁.threads = c.threads →
      (c₁.goto t th).threads u = .running l' →
      c.threads u = .running l' ∨ u = t ∧ th = .running l' := by
    intro c₁ t th hthreads hgoto
    by_cases hut : u = t
    · subst hut
      rw [Config.goto_threads_self] at hgoto
      exact Or.inr ⟨rfl, hgoto⟩
    · rw [Config.goto_threads_of_ne hut, hthreads] at hgoto
      exact Or.inl hgoto
  -- and a running one goes where its action leads
  have hown : ∀ {c₁ : Config T S L C} {t : T} {l k : L}, c₁.threads = c.threads →
      (c₁.goto t (.running k)).threads u = .running l' → c.threads t = .running l →
      (P t l).Leads c.shared c.unused k →
      c.threads u = .running l' ∨
        ∃ l, c.threads u = .running l ∧ (P u l).Leads c.shared c.unused l' := by
    intro c₁ t l k hthreads hgoto ht hleads
    rcases hmove hthreads hgoto with hsame | ⟨rfl, hth⟩
    · exact Or.inl hsame
    · cases hth
      exact Or.inr ⟨l, ht, hleads⟩
  cases hstep with
  | atomic ht ha => exact (hown (by rfl) hu ht (by rw [ha]; rfl)).imp_right Or.inl
  | ask ht ha hf => exact (hown (by rfl) hu ht (by rw [ha]; exact ⟨_, _, hf⟩)).imp_right Or.inl
  | tryLock ht ha _ => exact (hown (by rfl) hu ht (by rw [ha]; exact Or.inl rfl)).imp_right Or.inl
  | tryLockBusy ht ha _ =>
    exact (hown (by rfl) hu ht (by rw [ha]; exact Or.inr rfl)).imp_right Or.inl
  | timedLock ht ha _ =>
    exact (hown (by rfl) hu ht (by rw [ha]; exact Or.inl rfl)).imp_right Or.inl
  | timedLockExpired ht ha _ =>
    exact (hown (by rfl) hu ht (by rw [ha]; exact Or.inr rfl)).imp_right Or.inl
  | unlock ht ha _ => exact (hown (by rfl) hu ht (by rw [ha]; rfl)).imp_right Or.inl
  | probe ht ha => exact (hown (by rfl) hu ht (by rw [ha]; rfl)).imp_right Or.inl
  | signalNobody ht ha _ => exact (hown (by rfl) hu ht (by rw [ha]; rfl)).imp_right Or.inl
  | signal ht ha _ => exact (hown (by rfl) hu ht (by rw [ha]; rfl)).imp_right Or.inl
  | broadcast ht ha => exact (hown (by rfl) hu ht (by rw [ha]; rfl)).imp_right Or.inl
  | drain ht ha _ => exact (hown (by rfl) hu ht (by rw [ha]; rfl)).imp_right Or.inl
  | wait ht ha _ =>
    refine (hmove (by rfl) hu).imp_right fun ⟨_, hth⟩ => ?_
    cases hth
  | notified ht _ _ =>
    refine (hmove (by rfl) hu).imp_right fun ⟨heq, hth⟩ => Or.inr (Or.inl ?_)
    cases hth
    exact ⟨_, _, heq ▸ ht⟩
  | relock ht _ =>
    refine (hmove (by rfl) hu).imp_right fun ⟨heq, hth⟩ => Or.inr (Or.inr ?_)
    cases hth
    exact heq ▸ ht
  | timedOut ht _ =>
    refine (hmove (by rfl) hu).imp_right fun ⟨_, hth⟩ => ?_
    cases hth
  | spurious ht _ =>
    refine (hmove (by rfl) hu).imp_right fun ⟨_, hth⟩ => ?_
    cases hth

/-! ## Outlines -/

/-- What the action establishes from the data `s`: `post` at the point that it goes on to, or
`asleep` at the points where a wait will end. -/
def Action.Establishes (s : S) (post asleep : L → S → Prop) : Action S L C I → Prop
  | .atomic f => post (f s).2 (f s).1
  | .ask f => ∀ i s' l', f i s = some (s', l') → post l' s'
  | .tryLock got busy => post got s ∧ post busy s
  | .timedLock got timedOut => post got s ∧ post timedOut s
  | .unlock next => post next s
  | .probe free busy => post free s ∧ post busy s
  | .wait _ next late => asleep next s ∧ ∀ l ∈ late, asleep l s
  | .signal _ next => post next s
  | .broadcast _ next => post next s
  | .drain _ next => post next s
  | .halt => True

attribute [simp] Action.Establishes.eq_1 Action.Establishes.eq_2 Action.Establishes.eq_3
  Action.Establishes.eq_4 Action.Establishes.eq_5 Action.Establishes.eq_6 Action.Establishes.eq_7
  Action.Establishes.eq_8 Action.Establishes.eq_9 Action.Establishes.eq_10
  Action.Establishes.eq_11

theorem Action.establishes_map {L' : Type} {s : S} {post asleep : L' → S → Prop} {g : L → L'}
    {a : Action S L C I} :
    (a.map g).Establishes s post asleep ↔
      a.Establishes s (fun l => post (g l)) fun l => asleep (g l) := by
  cases a with
  | ask f =>
    constructor
    · intro h i s' l' hf
      exact h i s' (g l') (by simp [hf])
    · intro h i s' l' hf
      obtain ⟨⟨s'', l''⟩, hf', heq⟩ := Option.map_eq_some_iff.mp hf
      cases heq
      exact h i s'' l'' hf'
  | wait cv next late => cases late <;> simp [Action.map]
  | _ => exact Iff.rfl

/-- The action goes from the data `s` on to the point `l'`, and leaves the data `s'`. -/
def Action.Goes (s : S) (l' : L) (s' : S) : Action S L C I → Prop
  | .atomic f => f s = (s', l')
  | .ask f => ∃ i, f i s = some (s', l')
  | .tryLock got busy => s' = s ∧ (l' = got ∨ l' = busy)
  | .timedLock got timedOut => s' = s ∧ (l' = got ∨ l' = timedOut)
  | .unlock next => s' = s ∧ l' = next
  | .probe free busy => s' = s ∧ (l' = free ∨ l' = busy)
  | .wait _ _ _ => False
  | .signal _ next => s' = s ∧ l' = next
  | .broadcast _ next => s' = s ∧ l' = next
  | .drain _ next => s' = s ∧ l' = next
  | .halt => False

attribute [simp] Action.Goes.eq_1 Action.Goes.eq_2 Action.Goes.eq_3 Action.Goes.eq_4
  Action.Goes.eq_5 Action.Goes.eq_6 Action.Goes.eq_7 Action.Goes.eq_8 Action.Goes.eq_9
  Action.Goes.eq_10 Action.Goes.eq_11

/-- Leading somewhere is going there with some data. -/
theorem Action.Leads.goes {s : S} {free : Bool} {l' : L} {a : Action S L C I}
    (h : a.Leads s free l') : ∃ s', a.Goes s l' s' := by
  cases a with
  | atomic f =>
    cases h
    exact ⟨(f s).1, rfl⟩
  | ask f =>
    obtain ⟨i, s', hi⟩ := h
    exact ⟨s', i, hi⟩
  | tryLock got busy => exact ⟨s, rfl, h.imp Eq.symm Eq.symm⟩
  | timedLock got timedOut => exact ⟨s, rfl, h.imp Eq.symm Eq.symm⟩
  | probe yes no =>
    refine ⟨s, rfl, ?_⟩
    cases free with
    | true => exact Or.inl h.symm
    | false => exact Or.inr h.symm
  | wait => exact absurd h id
  | halt => exact absurd h id
  | _ => exact ⟨s, rfl, h.symm⟩

theorem Action.goes_map {L' : Type} {s s' : S} {l' : L'} {g : L → L'} {a : Action S L C I}
    (h : (a.map g).Goes s l' s') : ∃ l, l' = g l ∧ a.Goes s l s' := by
  cases a with
  | atomic f =>
    cases h
    exact ⟨(f s).2, rfl, rfl⟩
  | ask f =>
    obtain ⟨i, hi⟩ := h
    obtain ⟨⟨s'', l''⟩, hf, heq⟩ := Option.map_eq_some_iff.mp hi
    cases heq
    exact ⟨l'', rfl, i, hf⟩
  | tryLock got busy =>
    obtain ⟨rfl, rfl | rfl⟩ := h
    · exact ⟨got, rfl, rfl, Or.inl rfl⟩
    · exact ⟨busy, rfl, rfl, Or.inr rfl⟩
  | timedLock got timedOut =>
    obtain ⟨rfl, rfl | rfl⟩ := h
    · exact ⟨got, rfl, rfl, Or.inl rfl⟩
    · exact ⟨timedOut, rfl, rfl, Or.inr rfl⟩
  | probe free busy =>
    obtain ⟨rfl, rfl | rfl⟩ := h
    · exact ⟨free, rfl, rfl, Or.inl rfl⟩
    · exact ⟨busy, rfl, rfl, Or.inr rfl⟩
  | wait => exact absurd h id
  | halt => exact absurd h id
  | _ =>
    obtain ⟨rfl, rfl⟩ := h
    exact ⟨_, rfl, rfl, rfl⟩

/-- An action that is not a wait establishes what holds wherever it goes. -/
theorem Action.establishes_of_goes {s : S} {post asleep : L → S → Prop} {a : Action S L C I}
    (hwait : ∀ cv next late, a ≠ .wait cv next late)
    (h : ∀ l' s', a.Goes s l' s' → post l' s') : a.Establishes s post asleep := by
  cases a with
  | atomic f => exact h _ _ rfl
  | ask f => exact fun i s' l' hi => h l' s' ⟨i, hi⟩
  | tryLock got busy => exact ⟨h _ _ ⟨rfl, Or.inl rfl⟩, h _ _ ⟨rfl, Or.inr rfl⟩⟩
  | timedLock got timedOut => exact ⟨h _ _ ⟨rfl, Or.inl rfl⟩, h _ _ ⟨rfl, Or.inr rfl⟩⟩
  | unlock next => exact h _ _ ⟨rfl, rfl⟩
  | probe free busy => exact ⟨h _ _ ⟨rfl, Or.inl rfl⟩, h _ _ ⟨rfl, Or.inr rfl⟩⟩
  | wait cv next late => exact absurd rfl (hwait cv next late)
  | signal cv next => exact h _ _ ⟨rfl, rfl⟩
  | broadcast cv next => exact h _ _ ⟨rfl, rfl⟩
  | drain cv next => exact h _ _ ⟨rfl, rfl⟩
  | halt => trivial

/-- What an action establishes holds wherever it goes. -/
theorem Action.Establishes.of_goes {s s' : S} {l' : L} {post asleep : L → S → Prop}
    {a : Action S L C I} (h : a.Establishes s post asleep) (hgoes : a.Goes s l' s') :
    post l' s' := by
  cases a with
  | atomic f =>
    have heq : f s = (s', l') := hgoes
    rw [Action.Establishes, heq] at h
    exact h
  | ask f =>
    obtain ⟨i, hi⟩ := hgoes
    exact h i s' l' hi
  | tryLock got busy =>
    obtain ⟨rfl, rfl | rfl⟩ := hgoes
    · exact h.1
    · exact h.2
  | timedLock got timedOut =>
    obtain ⟨rfl, rfl | rfl⟩ := hgoes
    · exact h.1
    · exact h.2
  | probe free busy =>
    obtain ⟨rfl, rfl | rfl⟩ := hgoes
    · exact h.1
    · exact h.2
  | wait cv next late => exact hgoes.elim
  | halt => exact hgoes.elim
  | _ =>
    obtain ⟨rfl, rfl⟩ := hgoes
    exact h

section Steps

variable [DecidableEq T] [DecidableEq C] {P : T → L → Action S L C I} {c c' : Config T S L C}
  {i : Label T I}

/-- Only the thread that moves goes anywhere. -/
theorem Step.others (hstep : Step P c i c') {u : T} (hu : u ≠ i.mover) :
    c'.threads u = c.threads u := by
  cases hstep <;> exact Config.goto_threads_of_ne hu

/-- A thread that has not moved is where it was at the start. -/
theorem threads_of_run {c₀ : Config T S L C} {tr : List (Config T S L C × Label T I)} {t : T}
    (hrun : Run (Step P) c₀ tr c) (ht : Throughout (fun _ i => i.mover ≠ t) tr) :
    c.threads t = c₀.threads t := by
  induction hrun with
  | start => rfl
  | next _ hstep ih =>
    obtain ⟨hi, htail⟩ := throughout_cons.mp ht
    rw [hstep.others (Ne.symm hi), ih htail]

/-- All threads are where they were at the start, but those that have moved. -/
theorem threads_of_movers {c₀ : Config T S L C} {tr : List (Config T S L C × Label T I)}
    {ts : List T} (hrun : Run (Step P) c₀ tr c) (hmovers : Throughout (fun _ i => i.mover ∈ ts) tr)
    (t : T) : t ∈ ts ∨ c.threads t = c₀.threads t := by
  by_cases ht : t ∈ ts
  · exact Or.inl ht
  · exact Or.inr (threads_of_run hrun fun x hx heq => ht (heq ▸ hmovers x hx))

/-- A running thread that moves goes where its action says, or falls asleep. -/
theorem Step.goes (hstep : Step P c i c') {l : L} (ht : c.threads i.mover = .running l) :
    (∃ l', c'.threads i.mover = .running l' ∧ (P i.mover l).Goes c.shared l' c'.shared) ∨
      ∃ cv next late, P i.mover l = .wait cv next late ∧
        c'.threads i.mover = .blocked cv next late ∧ c'.shared = c.shared := by
  cases hstep with
  | wait ht' ha =>
    cases ht'.symm.trans ht
    exact Or.inr ⟨_, _, _, ha, Config.goto_threads_self _ _ _, rfl⟩
  | notified ht' => cases ht'.symm.trans ht
  | relock ht' => cases ht'.symm.trans ht
  | timedOut ht' => cases ht'.symm.trans ht
  | spurious ht' => cases ht'.symm.trans ht
  | ask ht' ha hf =>
    cases ht'.symm.trans ht
    refine Or.inl ⟨_, Config.goto_threads_self _ _ _, ?_⟩
    rw [Label.mover, ha]
    exact ⟨_, hf⟩
  | atomic ht' ha =>
    cases ht'.symm.trans ht
    refine Or.inl ⟨_, Config.goto_threads_self _ _ _, ?_⟩
    rw [Label.mover, ha]
    rfl
  | probe ht' ha =>
    cases ht'.symm.trans ht
    refine Or.inl ⟨_, Config.goto_threads_self _ _ _, ?_⟩
    rw [Label.mover, ha]
    refine ⟨rfl, ?_⟩
    split
    · exact Or.inl rfl
    · exact Or.inr rfl
  | _ ht' ha =>
    cases ht'.symm.trans ht
    refine Or.inl ⟨_, Config.goto_threads_self _ _ _, ?_⟩
    rw [Label.mover, ha]
    simp

/-- A thread that wakes up, or stops waiting, leaves the data alone. -/
theorem Step.still (hstep : Step P c i c') (ht : ∀ l, c.threads i.mover ≠ .running l) :
    c'.shared = c.shared := by
  cases hstep with
  | atomic ht' => exact absurd ht' (ht _)
  | ask ht' => exact absurd ht' (ht _)
  | _ => rfl

/-- **What a step does to the data**: a running thread goes where its action says, or the data stay
what they are, while the thread falls asleep or wakes up. -/
theorem Step.moves (hstep : Step P c i c') :
    (∃ l l', c.threads i.mover = .running l ∧ c'.threads i.mover = .running l' ∧
      (P i.mover l).Goes c.shared l' c'.shared) ∨
    c'.shared = c.shared ∧ ∀ l, c.threads i.mover = .running l →
      ∃ cv next late, P i.mover l = .wait cv next late := by
  by_cases hrunning : ∃ l, c.threads i.mover = .running l
  · obtain ⟨l, hl⟩ := hrunning
    rcases hstep.goes hl with ⟨l', hl', hgoes⟩ | ⟨cv, next, late, hwait, -, hs⟩
    · exact Or.inl ⟨l, l', hl, hl', hgoes⟩
    · refine Or.inr ⟨hs, fun l₁ hl₁ => ⟨cv, next, late, ?_⟩⟩
      cases hl.symm.trans hl₁
      exact hwait
  · exact Or.inr ⟨hstep.still fun l hl => hrunning ⟨l, hl⟩, fun l hl => absurd ⟨l, hl⟩ hrunning⟩

/-- Who is asleep after a step was so before, or is the thread that moves, which waits. -/
theorem Step.asleep (hstep : Step P c i c') {t : T} {cv : C} {next : L} {late : Option L}
    (ht : c'.threads t = .blocked cv next late) :
    (t ≠ i.mover ∧ c.threads t = .blocked cv next late) ∨
      t = i.mover ∧ ∃ l, c.threads t = .running l ∧ P t l = .wait cv next late := by
  by_cases htm : t = i.mover
  · refine Or.inr ⟨htm, ?_⟩
    subst htm
    cases hstep with
    | wait hu ha =>
      cases (Config.goto_threads_self _ _ _).symm.trans ht
      exact ⟨_, hu, ha⟩
    | _ => cases (Config.goto_threads_self _ _ _).symm.trans ht
  · exact Or.inl ⟨htm, (hstep.others htm).symm.trans ht⟩

/-- Only the thread that moves registers. -/
theorem Step.registers (hstep : Step P c i c') {cv : C} {t : T} (ht : c'.Registered cv t) :
    c.Registered cv t ∨ t = i.mover := by
  -- no list of waiters gains anybody but the thread that moves
  have hsub : ∀ {c₁ : Config T S L C} {cv' : C} {u : T} {th : Thread L C} {ts : List T},
      (∀ v ∈ ts, v ∈ c.waiters cv' ∨ v = i.mover) → c₁.waiters = c.waiters →
      ((c₁.setWaiters cv' ts).goto u th).Registered cv t → c.Registered cv t ∨ t = i.mover := by
    intro c₁ cv' u th ts hts hwaiters hreg
    by_cases hcv : cv = cv'
    · subst hcv
      simp only [Config.Registered, Config.goto_waiters, Config.setWaiters_waiters_self] at hreg
      exact hts t hreg
    · simp only [Config.Registered, Config.goto_waiters, Config.setWaiters_waiters_of_ne hcv,
        hwaiters] at hreg
      exact Or.inl hreg
  cases hstep with
  | wait => exact hsub (fun v hv => by simpa [Label.mover] using hv) (by rfl) ht
  | signal => exact hsub (fun v hv => Or.inl (List.mem_filter.mp hv).1) rfl ht
  | broadcast => exact hsub (fun v hv => by cases hv) rfl ht
  | timedOut => exact hsub (fun v hv => Or.inl (List.mem_filter.mp hv).1) rfl ht
  | spurious => exact hsub (fun v hv => Or.inl (List.mem_filter.mp hv).1) rfl ht
  | _ => exact Or.inl ht

/-- The step of a thread that is about to wait. -/
theorem Step.of_wait (hstep : Step P c i c') {l next : L} {cv : C} {late : Option L}
    (ht : c.threads i.mover = .running l) (ha : P i.mover l = .wait cv next late) :
    c'.threads i.mover = .blocked cv next late ∧ c'.Registered cv i.mover ∧
      c'.shared = c.shared := by
  rcases hstep.goes ht with ⟨l', -, hgoes⟩ | ⟨cv', next', late', ha', hb, hs⟩
  · rw [ha] at hgoes
    exact absurd hgoes id
  · cases ha.symm.trans ha'
    refine ⟨hb, ?_, hs⟩
    cases hstep with
    | wait ht' ha' =>
      cases ht'.symm.trans ht
      cases ha'.symm.trans ha
      simp [Config.Registered, Label.mover]
    | notified ht' => cases ht'.symm.trans ht
    | relock ht' => cases ht'.symm.trans ht
    | timedOut ht' => cases ht'.symm.trans ht
    | spurious ht' => cases ht'.symm.trans ht
    | _ ht' ha' =>
      cases ht'.symm.trans ht
      cases ha'.symm.trans ha

/-- The step of a thread that asks its environment carries the answer in its label. -/
theorem Step.of_ask (hstep : Step P c i c') {l : L} {f : I → S → Option (S × L)}
    (ht : c.threads i.mover = .running l) (ha : P i.mover l = .ask f) :
    ∃ input l', i = .ask i.mover input ∧ f input c.shared = some (c'.shared, l') ∧
      c'.threads i.mover = .running l' := by
  cases hstep with
  | @ask t l₀ l' input s' f₀ ht' ha' hf =>
    cases ht'.symm.trans ht
    cases ha'.symm.trans ha
    exact ⟨input, l', rfl, hf, Config.goto_threads_self _ _ _⟩
  | notified ht' => cases ht'.symm.trans ht
  | relock ht' => cases ht'.symm.trans ht
  | timedOut ht' => cases ht'.symm.trans ht
  | spurious ht' => cases ht'.symm.trans ht
  | _ ht' ha' =>
    cases ht'.symm.trans ht
    cases ha'.symm.trans ha

/-- The step of a thread that is about to broadcast leaves nobody registered. -/
theorem Step.of_broadcast (hstep : Step P c i c') {l next : L} {cv : C} {t : T}
    (ht : c.threads i.mover = .running l) (ha : P i.mover l = .broadcast cv next) :
    ¬ c'.Registered cv t := by
  cases hstep with
  | broadcast ht' ha' =>
    cases ht'.symm.trans ht
    cases ha'.symm.trans ha
    simp [Config.Registered]
  | notified ht' => cases ht'.symm.trans ht
  | relock ht' => cases ht'.symm.trans ht
  | timedOut ht' => cases ht'.symm.trans ht
  | spurious ht' => cases ht'.symm.trans ht
  | _ ht' ha' =>
    cases ht'.symm.trans ht
    cases ha'.symm.trans ha

/-- An atomic action leaves the waiters alone. -/
theorem Step.of_atomic (hstep : Step P c i c') {l : L} {f : S → S × L} {cv : C} {t : T}
    (ht : c.threads i.mover = .running l) (ha : P i.mover l = .atomic f) :
    c'.Registered cv t ↔ c.Registered cv t := by
  cases hstep with
  | atomic => exact Iff.rfl
  | notified ht' => cases ht'.symm.trans ht
  | relock ht' => cases ht'.symm.trans ht
  | timedOut ht' => cases ht'.symm.trans ht
  | spurious ht' => cases ht'.symm.trans ht
  | _ ht' ha' =>
    cases ht'.symm.trans ht
    cases ha'.symm.trans ha

/-- The step of a thread that looks whether the mutex is in use. -/
theorem Step.of_probe (hstep : Step P c i c') {l free busy : L}
    (ht : c.threads i.mover = .running l) (ha : P i.mover l = .probe free busy) :
    c'.shared = c.shared ∧
      c'.threads i.mover = .running (if c.unused then free else busy) := by
  cases hstep with
  | probe ht' ha' =>
    cases ht'.symm.trans ht
    cases ha'.symm.trans ha
    exact ⟨rfl, Config.goto_threads_self _ _ _⟩
  | notified ht' => cases ht'.symm.trans ht
  | relock ht' => cases ht'.symm.trans ht
  | timedOut ht' => cases ht'.symm.trans ht
  | spurious ht' => cases ht'.symm.trans ht
  | _ ht' ha' =>
    cases ht'.symm.trans ht
    cases ha'.symm.trans ha

/-- An attempt to lock fails only while the mutex is held. -/
theorem Step.held_of_busy (hstep : Step P c i c') {l got busy : L}
    (ht : c.threads i.mover = .running l)
    (ha : P i.mover l = .tryLock got busy ∨ P i.mover l = .timedLock got busy)
    (hbusy : c'.threads i.mover = .running busy) (hne : got ≠ busy) : c.owner ≠ none := by
  have hgot : ∀ {c₁ : Config T S L C} {t : T},
      (c₁.goto t (.running got)).threads t ≠ .running busy := by
    intro c₁ t heq
    rw [Config.goto_threads_self] at heq
    exact hne (Thread.running.inj heq)
  cases hstep with
  | tryLock ht' ha' =>
    cases ht'.symm.trans ht
    rcases ha with ha | ha
    · cases ha'.symm.trans ha
      exact absurd hbusy hgot
    · cases ha'.symm.trans ha
  | timedLock ht' ha' =>
    cases ht'.symm.trans ht
    rcases ha with ha | ha
    · cases ha'.symm.trans ha
    · cases ha'.symm.trans ha
      exact absurd hbusy hgot
  | tryLockBusy _ _ hheld => exact hheld
  | timedLockExpired _ _ hheld => exact hheld
  | notified ht' => cases ht'.symm.trans ht
  | relock ht' => cases ht'.symm.trans ht
  | timedOut ht' => cases ht'.symm.trans ht
  | spurious ht' => cases ht'.symm.trans ht
  | _ ht' ha' =>
    cases ht'.symm.trans ht
    rcases ha with ha | ha
    · cases ha'.symm.trans ha
    · cases ha'.symm.trans ha

end Steps

/-- Assertions about the shared data: one for all states, one for each thread at each point, and
one for each thread that sleeps and will go on at a point. -/
structure Outline (S T L : Type) where
  global : S → Prop
  running : T → L → S → Prop
  asleep : T → L → S → Prop

/-- The outline is valid for the steps that meet `ok`, in a program where two threads are never at
points that are `apart`. -/
structure Outline.Valid (O : Outline S T L) (P : T → L → Action S L C I) (apart : L → L → Prop)
    (ok : T → L → S → Prop) : Prop where
  own : ∀ {t l s}, O.global s → O.running t l s → ok t l s →
    (P t l).Establishes s (fun l' s' => O.global s' ∧ O.running t l' s') (O.asleep t)
  wake : ∀ {t l s}, O.global s → O.asleep t l s → O.running t l s
  frame : ∀ {t u l l' k s s'}, u ≠ t → O.global s → O.running u l' s → ok u l' s →
    (P u l').Goes s k s' → ¬ apart l l' → O.running t l s → O.running t l s'
  frameAsleep : ∀ {t u l l' k s s'}, u ≠ t → O.global s → O.running u l' s → ok u l' s →
    (P u l').Goes s k s' → O.asleep t l s → O.asleep t l s'

/-- The assertion that an outline makes about a thread. -/
def Outline.At (O : Outline S T L) (t : T) (s : S) : Thread L C → Prop
  | .running l => O.running t l s
  | .blocked _ next late => O.asleep t next s ∧ ∀ l ∈ late, O.asleep t l s
  | .woken next => O.asleep t next s

/-- The outline's assertions hold in the state. -/
structure Outline.Holds (O : Outline S T L) (c : Config T S L C) : Prop where
  global : O.global c.shared
  at_ : ∀ t, O.At t c.shared (c.threads t)

/-- The condition on a step: what `ok` says of the thread that moves. -/
def Guarded (ok : T → L → S → Prop) (c : Config T S L C) (i : Label T I) : Prop :=
  ∀ l, c.threads i.mover = .running l → ok i.mover l c.shared

instance (ok : T → L → S → Prop) [∀ t l s, Decidable (ok t l s)] (c : Config T S L C)
    (i : Label T I) : Decidable (Guarded ok c i) :=
  match hth : c.threads i.mover with
  | .running l => decidable_of_iff (ok i.mover l c.shared)
      ⟨fun h l' hl' => by rw [hth] at hl'; cases hl'; exact h, fun h => h l hth⟩
  | .blocked _ _ _ => isTrue fun l hl => by rw [hth] at hl; cases hl
  | .woken _ => isTrue fun l hl => by rw [hth] at hl; cases hl

section Outlines

variable {O : Outline S T L} {P : T → L → Action S L C I} {apart : L → L → Prop}
  {ok : T → L → S → Prop} {c c' : Config T S L C} {t : T}

theorem Outline.Holds.running (h : O.Holds c) {l : L} (ht : c.threads t = .running l) :
    O.running t l c.shared := by
  have := h.at_ t
  rwa [ht] at this

/-- A move that changes the data: the other threads keep their assertions by the frame rules. -/
private theorem Outline.Holds.of_change (hO : O.Valid P apart ok) (h : O.Holds c)
    (hapart : Apart apart c) {l l' : L} (ht : c.threads t = .running l)
    (hok : ok t l c.shared) (hgoes : (P t l).Goes c.shared l' c'.shared)
    (hthreads : ∀ u, u ≠ t → c'.threads u = c.threads u) (hself : c'.threads t = .running l')
    (hpost : O.global c'.shared ∧ O.running t l' c'.shared) : O.Holds c' := by
  refine ⟨hpost.1, fun u => ?_⟩
  by_cases hu : u = t
  · subst hu
    rw [hself]
    exact hpost.2
  have hmover := h.running ht
  have hat := h.at_ u
  rw [hthreads u hu]
  cases hth : c.threads u with
  | running k =>
    rw [hth] at hat
    -- the two points are not apart, so the frame rule covers this pair
    exact hO.frame (Ne.symm hu) h.global hmover hok hgoes (hapart (Ne.symm hu) hth ht) hat
  | blocked cv k late =>
    rw [hth] at hat
    exact ⟨hO.frameAsleep (Ne.symm hu) h.global hmover hok hgoes hat.1,
      fun k' hk' => hO.frameAsleep (Ne.symm hu) h.global hmover hok hgoes (hat.2 k' hk')⟩
  | woken k =>
    rw [hth] at hat
    exact hO.frameAsleep (Ne.symm hu) h.global hmover hok hgoes hat

/-- A move that does not touch the data concerns only the thread that moves. -/
private theorem Outline.Holds.of_still (h : O.Holds c) (hshared : c'.shared = c.shared)
    (hthreads : ∀ u, u ≠ t → c'.threads u = c.threads u)
    (hself : O.At t c.shared (c'.threads t)) : O.Holds c' := by
  refine ⟨by rw [hshared]; exact h.global, fun u => ?_⟩
  rw [hshared]
  by_cases hu : u = t
  · subst hu
    exact hself
  · rw [hthreads u hu]
    exact h.at_ u

variable [DecidableEq T] [DecidableEq C]

/-- A thread that is not running wakes up where it may rely on what was kept for it. -/
private theorem Outline.Holds.wakes (hO : O.Valid P apart ok) (h : O.Holds c) {i : Label T I}
    (hstep : Step P c i c') (hmover : ∀ l, c.threads i.mover ≠ .running l) :
    O.At i.mover c.shared (c'.threads i.mover) := by
  cases hstep with
  | @notified t cv k late ht _ _ =>
    have hat := h.at_ t
    rw [ht] at hat
    rw [Label.mover, Config.goto_threads_self]
    exact hO.wake h.global hat.1
  | @relock t k ht _ =>
    have hat := h.at_ t
    rw [ht] at hat
    rw [Label.mover, Config.goto_threads_self]
    exact hO.wake h.global hat
  | @timedOut t cv k late ht _ =>
    have hat := h.at_ t
    rw [ht] at hat
    rw [Label.mover, Config.goto_threads_self]
    exact hat.2 late rfl
  | @spurious t cv k late ht _ =>
    have hat := h.at_ t
    rw [ht] at hat
    rw [Label.mover, Config.goto_threads_self]
    exact hat.1
  | _ ht => exact absurd ht (hmover _)

/-- **A valid outline is kept by every step that meets the condition.** -/
theorem Outline.Holds.step (hO : O.Valid P apart ok) (h : O.Holds c)
    (hapart : Apart apart c) {i : Label T I} (hok : Guarded ok c i)
    (hstep : Step P c i c') : O.Holds c' := by
  have hothers : ∀ u, u ≠ i.mover → c'.threads u = c.threads u := fun u hu => hstep.others hu
  by_cases hrunning : ∃ l, c.threads i.mover = .running l
  · obtain ⟨l, ht⟩ := hrunning
    have hpost := hO.own h.global (h.running ht) (hok l ht)
    rcases hstep.goes ht with ⟨l', ht', hgoes⟩ | ⟨cv, next, late, hwait, ht', hshared⟩
    · exact h.of_change hO hapart ht (hok l ht) hgoes hothers ht' (hpost.of_goes hgoes)
    · -- the thread falls asleep, and what its action establishes is kept for it
      rw [hwait] at hpost
      refine h.of_still hshared hothers ?_
      rw [ht']
      exact hpost
  · have hmover : ∀ l, c.threads i.mover ≠ .running l := fun l ht => hrunning ⟨l, ht⟩
    exact h.of_still (hstep.still hmover) hothers (h.wakes hO hstep hmover)

/-- **The outline rule**: a valid outline that holds at the start holds in every state of every run
whose steps meet the condition, when an invariant `J` keeps the points apart. -/
theorem Outline.Valid.run (hO : O.Valid P apart ok) {J : Config T S L C → Prop}
    {c₀ : Config T S L C} {tr : List (Config T S L C × Label T I)} (hrun : Run (Step P) c₀ tr c)
    (hJ : J c₀) (hJstep : ∀ {c i c'}, J c → Step P c i c' → J c')
    (hJapart : ∀ {c}, J c → Apart apart c) (hstart : O.Holds c₀)
    (hok : Throughout (Guarded ok) tr) : Everywhere (fun c => J c ∧ O.Holds c) tr c :=
  hrun.everywhere ⟨hJ, hstart⟩
    (fun hI hi hstep => ⟨hJstep hI.1 hstep, hI.2.step hO (hJapart hI.1) hi hstep⟩) hok

end Outlines

end ShmemUtils.Library.Monitor
