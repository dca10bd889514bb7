import ShmemUtils.Library.Outline

/-!
# A thread that moves alone

From a state in which the mutex is free, the steps of one thread are those of a sequential program:
its lock attempts succeed, it stays registered while it sleeps, and it is never stuck outside of a
sleep that has no deadline. What a function returns to a thread that moves alone is its sequential
meaning.
-/

namespace ShmemUtils.Library.Monitor

variable {T S L C I : Type}

/-- The action of a thread whose lock attempts succeed, and which begins nothing new. -/
def Action.uncontended : Action S L C I → Action S L C I
  | .tryLock got _ => .tryLock got got
  | .timedLock got _ => .timedLock got got
  | .ask _ => .halt
  | a => a

/-- The action neither asks for something new nor stops, nor blocks on threads that are asleep. -/
def Action.Acts : Action S L C I → Prop
  | .ask _ => False
  | .drain _ _ => False
  | .halt => False
  | _ => True

theorem Action.acts_map {L' : Type} {g : L → L'} {a : Action S L C I} :
    (a.map g).Acts ↔ a.Acts := by
  cases a <;> exact Iff.rfl

theorem Action.map_eq_wait {L' : Type} {g : L → L'} {a : Action S L C I} {cv : C} {next : L'}
    {late : Option L'} (h : a.map g = .wait cv next late) :
    ∃ next' late', a = .wait cv next' late' ∧ next = g next' ∧ late = late'.map g := by
  cases a with
  | wait cv' next' late' =>
    cases h
    exact ⟨next', late', rfl, rfl, rfl⟩
  | _ => cases h

theorem Action.uncontended_map {L' : Type} {g : L → L'} (a : Action S L C I) :
    (a.map g).uncontended = a.uncontended.map g := by
  cases a <;> rfl

theorem Action.goes_of_uncontended {s s' : S} {l' : L} {a : Action S L C I}
    (h : a.uncontended.Goes s l' s') : a.Goes s l' s' := by
  cases a with
  | tryLock got busy => exact ⟨h.1, Or.inl (or_self_iff.mp h.2)⟩
  | timedLock got timedOut => exact ⟨h.1, Or.inl (or_self_iff.mp h.2)⟩
  | ask f => exact absurd h id
  | _ => exact h

/-- Uncontended, an action establishes what holds wherever it goes, and what a wait needs. -/
theorem Action.uncontended_establishes {s : S} {post asleep : L → S → Prop} {a : Action S L C I}
    (hpost : ∀ l' s', a.uncontended.Goes s l' s' → post l' s')
    (hasleep : ∀ cv next late, a = .wait cv next late → asleep next s ∧ ∀ l ∈ late, asleep l s) :
    a.uncontended.Establishes s post asleep := by
  cases a with
  | wait cv next late => exact hasleep cv next late rfl
  | _ => exact Action.establishes_of_goes (fun _ _ _ heq => by cases heq) hpost

/-- The step is one of thread `t`, and not the beginning of something new. -/
def Unaided (t : T) (_ : Config T S L C) (i : Label T I) : Prop :=
  i.mover = t ∧ ∀ input, i ≠ .ask t input

/-- Thread `t` holds the mutex at its holding points and nobody holds it otherwise; while it sleeps
it is registered. -/
def Solitary (holding : L → Bool) (t : T) (c : Config T S L C) : Prop :=
  match c.threads t with
  | .running l => c.owner = if holding l then some t else none
  | .blocked cv next late => c.owner = none ∧ c.Registered cv t ∧
      holding next = true ∧ ∀ l ∈ late, holding l = true
  | .woken next => c.owner = none ∧ holding next = true

variable {P : T → L → Action S L C I} {holding : L → Bool} {c c' : Config T S L C} {t : T}
  {l : L}

namespace Solitary

theorem running_iff (ht : c.threads t = .running l) :
    Solitary holding t c ↔ c.owner = if holding l then some t else none := by
  rw [Solitary, ht]

theorem blocked_iff {cv : C} {next : L} {late : Option L}
    (ht : c.threads t = .blocked cv next late) :
    Solitary holding t c ↔ c.owner = none ∧ c.Registered cv t ∧
      holding next = true ∧ ∀ l ∈ late, holding l = true := by
  rw [Solitary, ht]

theorem woken_iff {next : L} (ht : c.threads t = .woken next) :
    Solitary holding t c ↔ c.owner = none ∧ holding next = true := by
  rw [Solitary, ht]

/-- At a point that is not holding the mutex is free. -/
theorem owner_eq_none (h : Solitary holding t c) (ht : c.threads t = .running l)
    (hl : holding l = false) : c.owner = none := by
  rw [(running_iff ht).mp h, hl]
  rfl

theorem owner_eq_self (h : Solitary holding t c) (ht : c.threads t = .running l)
    (hl : holding l = true) : c.owner = some t := by
  rw [(running_iff ht).mp h, hl]
  rfl

section Steps

variable [DecidableEq T]

/-- A thread that goes on with the mutex, or without it, as the point says. -/
private theorem goto_running {l' : L} {s : S} {o : Option T} {w : C → List T} {ts : List T}
    (ho : o = if holding l' then some t else none) :
    Solitary holding t (({ c with shared := s, owner := o, waiters := w, waiting := ts } :
      Config T S L C).goto t (.running l')) :=
  (running_iff (Config.goto_threads_self _ _ _)).mpr ho

variable [DecidableEq C]

/-- **A thread stays alone** by its own steps. -/
theorem step (h : Solitary holding t c) (hP : Disciplined P holding) {i : Label T I}
    (hmover : i.mover = t) (hstep : Step P c i c') : Solitary holding t c' := by
  subst hmover
  cases hstep with
  | @atomic t l f ht ha =>
    have hl := hP.respects ha
    exact goto_running (by rw [hl c.shared]; exact (running_iff ht).mp h)
  | @ask t l l' i s' f ht ha hf =>
    have hl := hP.respects ha
    exact goto_running (by rw [hl i c.shared (s', l') hf]; exact (running_iff ht).mp h)
  | tryLock ht ha hfree =>
    have hl := hP.respects ha
    exact goto_running (by rw [hl.2.1]; rfl)
  | tryLockBusy ht ha hheld => exact absurd (h.owner_eq_none ht (hP.respects ha).1) hheld
  | timedLock ht ha hfree =>
    have hl := hP.respects ha
    exact goto_running (by rw [hl.2.1]; rfl)
  | timedLockExpired ht ha hheld => exact absurd (h.owner_eq_none ht (hP.respects ha).1) hheld
  | unlock ht ha hown =>
    have hl := hP.respects ha
    exact goto_running (by rw [hl.2]; rfl)
  | @drain t l next cv ht ha hnobody =>
    have hl := hP.respects ha
    exact goto_running (by rw [hl.2, ← hl.1]; exact (running_iff ht).mp h)
  | @probe t l free busy ht ha =>
    have hl := hP.respects ha
    have howner := (running_iff ht).mp h
    refine goto_running ?_
    split
    · rw [hl.1]
      exact howner
    · rw [hl.2]
      exact howner
  | wait ht ha hown =>
    have hl := hP.respects ha
    refine (blocked_iff (Config.goto_threads_self _ _ _)).mpr ⟨rfl, ?_, hl.2⟩
    simp [Config.Registered, Label.mover]
  | signalNobody ht ha =>
    have hl := hP.respects ha
    exact goto_running (by rw [hl]; exact (running_iff ht).mp h)
  | signal ht ha =>
    have hl := hP.respects ha
    exact goto_running (by rw [hl]; exact (running_iff ht).mp h)
  | broadcast ht ha =>
    have hl := hP.respects ha
    exact goto_running (by rw [hl]; exact (running_iff ht).mp h)
  | notified ht =>
    obtain ⟨-, -, hk, -⟩ := (blocked_iff ht).mp h
    exact goto_running (by rw [hk]; rfl)
  | relock ht =>
    obtain ⟨-, hk⟩ := (woken_iff ht).mp h
    exact goto_running (by rw [hk]; rfl)
  | timedOut ht =>
    obtain ⟨hfree, -, -, hlate⟩ := (blocked_iff ht).mp h
    exact (woken_iff (Config.goto_threads_self _ _ _)).mpr ⟨hfree, hlate _ rfl⟩
  | spurious ht =>
    obtain ⟨hfree, -, hk, -⟩ := (blocked_iff ht).mp h
    exact (woken_iff (Config.goto_threads_self _ _ _)).mpr ⟨hfree, hk⟩

/-- The lock attempts of a thread that is alone succeed. -/
theorem locks (h : Solitary holding t c) (hP : Disciplined P holding) {i : Label T I} {got k : L}
    (hmover : i.mover = t) (hstep : Step P c i c') (ht : c.threads t = .running l)
    (ha : P t l = .tryLock got k ∨ P t l = .timedLock got k) : c'.threads t = .running got := by
  subst hmover
  have hfree : c.owner = none := by
    rcases ha with ha | ha
    · exact h.owner_eq_none ht (hP.respects ha).1
    · exact h.owner_eq_none ht (hP.respects ha).1
  cases hstep with
  | tryLock ht' ha' =>
    cases ht'.symm.trans ht
    rcases ha with ha | ha
    · cases ha'.symm.trans ha
      exact Config.goto_threads_self _ _ _
    · cases ha'.symm.trans ha
  | timedLock ht' ha' =>
    cases ht'.symm.trans ht
    rcases ha with ha | ha
    · cases ha'.symm.trans ha
    · cases ha'.symm.trans ha
      exact Config.goto_threads_self _ _ _
  | tryLockBusy _ _ hheld => exact absurd hfree hheld
  | timedLockExpired _ _ hheld => exact absurd hfree hheld
  | notified ht' => cases ht'.symm.trans ht
  | relock ht' => cases ht'.symm.trans ht
  | timedOut ht' => cases ht'.symm.trans ht
  | spurious ht' => cases ht'.symm.trans ht
  | _ ht' ha' =>
    cases ht'.symm.trans ht
    rcases ha with ha | ha <;> cases ha'.symm.trans ha

/-- A thread that is alone and awake goes where its uncontended action says, or falls asleep. -/
theorem goes (h : Solitary holding t c) (hP : Disciplined P holding) {i : Label T I}
    (hunaided : Unaided t c i) (hstep : Step P c i c') (ht : c.threads t = .running l) :
    (∃ l', c'.threads t = .running l' ∧ (P t l).uncontended.Goes c.shared l' c'.shared) ∨
      ∃ cv next late, P t l = .wait cv next late ∧ c'.threads t = .blocked cv next late ∧
        c'.shared = c.shared := by
  obtain ⟨rfl, hask⟩ := hunaided
  rcases hstep.goes ht with ⟨l', ht', hgoes⟩ | hwait
  · refine Or.inl ⟨l', ht', ?_⟩
    cases ha : P i.mover l with
    | tryLock got busy =>
      rw [ha] at hgoes
      cases (h.locks hP rfl hstep ht (Or.inl ha)).symm.trans ht'
      exact ⟨hgoes.1, Or.inl rfl⟩
    | timedLock got timedOut =>
      rw [ha] at hgoes
      cases (h.locks hP rfl hstep ht (Or.inr ha)).symm.trans ht'
      exact ⟨hgoes.1, Or.inl rfl⟩
    | ask f =>
      obtain ⟨input, -, hi, -⟩ := hstep.of_ask ht ha
      exact absurd hi (hask input)
    | _ =>
      rw [ha] at hgoes
      exact hgoes
  · exact Or.inr hwait

/-- **The sequential rule**: an outline whose assertions follow from each other along the
uncontended actions of one thread is kept by every step that the thread takes alone. -/
theorem outline {O : Outline S T L} (h : Solitary holding t c) (hP : Disciplined P holding)
    (hown : ∀ {l s}, O.running t l s →
      (P t l).uncontended.Establishes s (O.running t) (O.asleep t))
    (hwake : ∀ {l s}, O.asleep t l s → O.running t l s) (hat : O.At t c.shared (c.threads t))
    {i : Label T I} (hunaided : Unaided t c i) (hstep : Step P c i c') :
    O.At t c'.shared (c'.threads t) := by
  by_cases hrunning : ∃ l, c.threads t = .running l
  · obtain ⟨l, ht⟩ := hrunning
    rw [ht] at hat
    rcases h.goes hP hunaided hstep ht with ⟨l', ht', hgoes⟩ | ⟨cv, next, late, ha, ht', hs⟩
    · rw [ht']
      exact (hown hat).of_goes hgoes
    · have hpost := hown hat
      rw [ha] at hpost
      rw [ht', hs]
      exact hpost
  · have hnot : ∀ l, c.threads i.mover ≠ .running l := by
      intro l ht
      rw [hunaided.1] at ht
      exact hrunning ⟨l, ht⟩
    rw [hstep.still hnot]
    obtain ⟨rfl, -⟩ := hunaided
    cases hstep with
    | notified ht =>
      rw [Label.mover, ht] at hat
      rw [Label.mover, Config.goto_threads_self]
      exact hwake hat.1
    | relock ht =>
      rw [Label.mover, ht] at hat
      rw [Label.mover, Config.goto_threads_self]
      exact hwake hat
    | timedOut ht =>
      rw [Label.mover, ht] at hat
      rw [Label.mover, Config.goto_threads_self]
      exact hat.2 _ rfl
    | spurious ht =>
      rw [Label.mover, ht] at hat
      rw [Label.mover, Config.goto_threads_self]
      exact hat.1
    | _ ht => exact absurd ht (hnot _)

/-! ## Progress -/

/-- A thread that is alone and awake can take its next step. -/
theorem exists_step (h : Solitary holding t c) (hP : Disciplined P holding)
    (ht : c.threads t = .running l) (hacts : (P t l).Acts) :
    ∃ i c', Unaided t c i ∧ Step P c i c' := by
  cases ha : P t l with
  | atomic f => exact ⟨.run t, _, ⟨rfl, fun _ heq => by cases heq⟩, .atomic ht ha⟩
  | ask f =>
    rw [ha] at hacts
    exact absurd hacts id
  | tryLock got busy =>
    have hfree := h.owner_eq_none ht (hP.respects ha).1
    exact ⟨.run t, _, ⟨rfl, fun _ heq => by cases heq⟩, .tryLock ht ha hfree⟩
  | timedLock got timedOut =>
    have hfree := h.owner_eq_none ht (hP.respects ha).1
    exact ⟨.run t, _, ⟨rfl, fun _ heq => by cases heq⟩, .timedLock ht ha hfree⟩
  | unlock next =>
    have hown := h.owner_eq_self ht (hP.respects ha).1
    exact ⟨.run t, _, ⟨rfl, fun _ heq => by cases heq⟩, .unlock ht ha hown⟩
  | probe free busy => exact ⟨.run t, _, ⟨rfl, fun _ heq => by cases heq⟩, .probe ht ha⟩
  | wait cv next late =>
    have hown := h.owner_eq_self ht (hP.respects ha).1
    exact ⟨.run t, _, ⟨rfl, fun _ heq => by cases heq⟩, .wait ht ha hown⟩
  | signal cv next =>
    by_cases hnil : c.waiters cv = []
    · exact ⟨.run t, _, ⟨rfl, fun _ heq => by cases heq⟩, .signalNobody ht ha hnil⟩
    · obtain ⟨u, hu⟩ := List.exists_mem_of_ne_nil _ hnil
      exact ⟨.notify t u, _, ⟨rfl, fun _ heq => by cases heq⟩, .signal ht ha hu⟩
  | broadcast cv next => exact ⟨.run t, _, ⟨rfl, fun _ heq => by cases heq⟩, .broadcast ht ha⟩
  | drain cv next =>
    rw [ha] at hacts
    exact absurd hacts id
  | halt =>
    rw [ha] at hacts
    exact absurd hacts id

/-- A sleeper with a deadline can run out of time. -/
theorem exists_timedOut (h : Solitary holding t c) {cv : C} {next late : L}
    (ht : c.threads t = .blocked cv next (some late)) :
    ∃ i c', Unaided t c i ∧ Step P c i c' ∧ c'.threads t = .woken late ∧ c'.shared = c.shared :=
  ⟨.expire t, _, ⟨rfl, fun _ heq => by cases heq⟩, .timedOut ht ((blocked_iff ht).mp h).2.1,
    Config.goto_threads_self _ _ _, rfl⟩

/-- A thread that has stopped waiting can go on. -/
theorem exists_relock (h : Solitary holding t c) {next : L} (ht : c.threads t = .woken next) :
    ∃ i c', Unaided t c i ∧ Step P c i c' ∧ c'.threads t = .running next ∧ c'.shared = c.shared :=
  ⟨.run t, _, ⟨rfl, fun _ heq => by cases heq⟩, .relock ht ((woken_iff ht).mp h).1,
    Config.goto_threads_self _ _ _, rfl⟩

end Steps

end Solitary

end ShmemUtils.Library.Monitor
