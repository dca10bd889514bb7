import ShmemUtils.Library.Outline

/-!
# Resource invariants

What a mutex protects satisfies an invariant while the mutex is free, and while it is not the
assertion at the program point of its owner. A thread that takes the mutex may assume the
invariant, and has to establish it again before it gives the mutex up, to wait included
(`Resource`).

Over such a program, wake-ups by broadcasts are accounted for by *debts*. Whoever may have made true
what somebody waits for owes a broadcast until it has made one, and does not fall asleep with a
debt; then nobody stays asleep over something true that no running thread owes a broadcast for
(`Debts`).
-/

namespace ShmemUtils.Library.Monitor

variable {T S L C I : Type} {P : T → L → Action S L C I} {holding : L → Bool} {t u : T} {l l' : L}
  {s s' : S} {cv : C} {next : L} {late : Option L}

/-- What is protected, and what the owner of the mutex knows at each of its points. -/
structure Resource (P : T → L → Action S L C I) (holding : L → Bool) where
  invariant : S → Prop
  assertion : T → L → S → Prop
  -- the owner goes on knowing something, or gives the mutex up with the invariant
  inside : ∀ {t l s l' s'}, holding l = true → assertion t l s → (P t l).Goes s l' s' →
    if holding l' = true then assertion t l' s' else invariant s'
  -- the others change nothing, and assume the invariant when they take the mutex
  outside : ∀ {t l s l' s'}, holding l = false → (P t l).Goes s l' s' →
    s' = s ∧ (holding l' = true → invariant s → assertion t l' s)
  sleeps : ∀ {t l s cv next late}, P t l = .wait cv next late → assertion t l s → invariant s
  wakes : ∀ {t l s cv next late l'}, P t l = .wait cv next late → l' = next ∨ l' ∈ late →
    invariant s → assertion t l' s

/-- Every thread that is asleep or has been has come there by a wait of its program. -/
structure Asleep (P : T → L → Action S L C I) (c : Config T S L C) : Prop where
  blocked : ∀ {t cv next late}, c.threads t = .blocked cv next late →
    ∃ l, P t l = .wait cv next late
  woken : ∀ {t l'}, c.threads t = .woken l' →
    ∃ l cv next late, P t l = .wait cv next late ∧ (l' = next ∨ l' ∈ late)

/-- The invariant while the mutex is free, and the assertion of its owner while it is not. -/
structure Resource.Holds (R : Resource P holding) (c : Config T S L C) : Prop where
  free : c.owner = none → R.invariant c.shared
  owned : ∀ {t l}, c.threads t = .running l → holding l = true → R.assertion t l c.shared

section Steps

variable [DecidableEq T] [DecidableEq C] {c c' : Config T S L C} {i : Label T I}

/-- A thread that is not running takes the free mutex and goes on, or has been woken. -/
theorem Step.resumes (hstep : Step P c i c') (ht : ∀ l, c.threads i.mover ≠ .running l) :
    ∃ l', ((∃ cv next late, c.threads i.mover = .blocked cv next late ∧ (l' = next ∨ l' ∈ late)) ∨
        c.threads i.mover = .woken l') ∧
      (c.owner = none ∧ c'.owner = some i.mover ∧ c'.threads i.mover = .running l' ∨
        c'.owner = c.owner ∧ c'.threads i.mover = .woken l') := by
  cases hstep with
  | @notified t cv next late ht' _ hfree =>
    exact ⟨next, Or.inl ⟨cv, next, late, ht', Or.inl rfl⟩,
      Or.inl ⟨hfree, rfl, Config.goto_threads_self _ _ _⟩⟩
  | @relock t next ht' hfree =>
    exact ⟨next, Or.inr ht', Or.inl ⟨hfree, rfl, Config.goto_threads_self _ _ _⟩⟩
  | @timedOut t cv next late ht' =>
    exact ⟨late, Or.inl ⟨cv, next, some late, ht', Or.inr rfl⟩,
      Or.inr ⟨rfl, Config.goto_threads_self _ _ _⟩⟩
  | @spurious t cv next late ht' =>
    exact ⟨next, Or.inl ⟨cv, next, late, ht', Or.inl rfl⟩,
      Or.inr ⟨rfl, Config.goto_threads_self _ _ _⟩⟩
  | _ ht' => exact absurd ht' (ht _)

theorem Asleep.step (h : Asleep P c) (hstep : Step P c i c') : Asleep P c' where
  blocked := by
    intro t cv next late ht
    rcases hstep.asleep ht with ⟨-, ht'⟩ | ⟨-, l, -, ha⟩
    · exact h.blocked ht'
    · exact ⟨l, ha⟩
  woken := by
    intro t l' ht
    by_cases hmover : t = i.mover
    · subst hmover
      by_cases hrunning : ∃ l, c.threads i.mover = .running l
      · obtain ⟨l, hl⟩ := hrunning
        rcases hstep.goes hl with ⟨k, hk, -⟩ | ⟨cv, next, late, -, hb, -⟩
        · cases hk.symm.trans ht
        · cases hb.symm.trans ht
      · obtain ⟨k, hfrom, hto⟩ := hstep.resumes fun l hl => hrunning ⟨l, hl⟩
        have hk : k = l' := by
          rcases hto with ⟨-, -, hk⟩ | ⟨-, hk⟩
          · cases hk.symm.trans ht
          · cases hk.symm.trans ht
            rfl
        subst hk
        rcases hfrom with ⟨cv, next, late, hb, hor⟩ | hw
        · obtain ⟨l, ha⟩ := h.blocked hb
          exact ⟨l, cv, next, late, ha, hor⟩
        · exact h.woken hw
    · rw [hstep.others hmover] at ht
      exact h.woken ht

namespace Resource

variable (R : Resource P holding)

/-- Nobody but the thread that moves can have taken the mutex or given it up. -/
theorem owner_of_others (hexcl : Exclusive holding c) (hexcl' : Exclusive holding c')
    (hstep : Step P c i c') (hu : u ≠ i.mover) : c'.owner = some u ↔ c.owner = some u := by
  have hthreads := hstep.others hu
  constructor
  · intro howner
    obtain ⟨l, hl, hholding⟩ := hexcl'.exists_running howner
    exact (hexcl.of_running (hthreads.symm.trans hl)).1.mpr hholding
  · intro howner
    obtain ⟨l, hl, hholding⟩ := hexcl.exists_running howner
    exact (hexcl'.of_running (hthreads.trans hl)).1.mpr hholding

/-- While a thread that does not own the mutex moves, the mutex is as free as before. -/
theorem free_of_outside (hexcl : Exclusive holding c) (hexcl' : Exclusive holding c')
    (hstep : Step P c i c') (hown : c.owner ≠ some i.mover)
    (hown' : c'.owner = none ∨ c'.owner = some i.mover) : c.owner = none := by
  by_contra hheld
  obtain ⟨u, hu⟩ := Option.ne_none_iff_exists'.mp hheld
  have hne : u ≠ i.mover := fun heq => hown (heq ▸ hu)
  have hu' := (owner_of_others hexcl hexcl' hstep hne).mpr hu
  rcases hown' with hnone | hself
  · cases hnone.symm.trans hu'
  · cases hself.symm.trans hu'
    exact hne rfl

variable {R}

/-- A step that leaves the data alone. -/
private theorem Holds.of_still (h : R.Holds c) (hstep : Step P c i c')
    (hshared : c'.shared = c.shared) (hfree : c'.owner = none → R.invariant c.shared)
    (hself : ∀ {l'}, c'.threads i.mover = .running l' → holding l' = true →
      R.assertion i.mover l' c.shared) : R.Holds c' where
  free hnone := hshared ▸ hfree hnone
  owned := by
    intro t l ht hl
    rw [hshared]
    by_cases hmover : t = i.mover
    · subst hmover
      exact hself ht hl
    · exact h.owned ((hstep.others hmover).symm.trans ht) hl

/-- **What is protected stays so** with every step. -/
theorem Holds.step (h : R.Holds c) (hasleep : Asleep P c) (hexcl : Exclusive holding c)
    (hP : Disciplined P holding) (hstep : Step P c i c') : R.Holds c' := by
  have hexcl' := hexcl.step hP hstep
  by_cases hrunning : ∃ l, c.threads i.mover = .running l
  · obtain ⟨l, hl⟩ := hrunning
    rcases hstep.goes hl with ⟨l', hl', hgoes⟩ | ⟨cv, next, late, ha, hb, hshared⟩
    · have howner' := (hexcl'.of_running hl').1
      by_cases hholding : holding l = true
      · -- the owner moves, and nobody else knows anything
        have hown := (hexcl.of_running hl).1.mpr hholding
        have hpost := R.inside hholding (h.owned hl hholding) hgoes
        constructor
        · intro hnone
          rwa [if_neg fun hl' => by cases hnone.symm.trans (howner'.mpr hl')] at hpost
        · intro t k ht hk
          by_cases hmover : t = i.mover
          · subst hmover
            cases hl'.symm.trans ht
            rwa [if_pos hk] at hpost
          · have hk' := (hexcl'.of_running ht).1.mpr hk
            cases hown.symm.trans ((owner_of_others hexcl hexcl' hstep hmover).mp hk')
            exact absurd rfl hmover
      · have hown : c.owner ≠ some i.mover := fun heq =>
          hholding ((hexcl.of_running hl).1.mp heq)
        obtain ⟨hshared, hpost⟩ := R.outside (Bool.eq_false_iff.mpr hholding) hgoes
        refine h.of_still hstep hshared (fun hnone => ?_) fun ht hk => ?_
        · exact h.free (free_of_outside hexcl hexcl' hstep hown (Or.inl hnone))
        · -- the thread has taken the mutex, which was free
          cases hl'.symm.trans ht
          exact hpost hk (h.free
            (free_of_outside hexcl hexcl' hstep hown (Or.inr (howner'.mpr hk))))
    · have hholding : holding l = true := (hP.respects ha).1
      refine h.of_still hstep hshared (fun _ => ?_) fun ht _ => ?_
      · exact R.sleeps ha (h.owned hl hholding)
      · cases hb.symm.trans ht
  · have hstill : ∀ l, c.threads i.mover ≠ .running l := fun l hl => hrunning ⟨l, hl⟩
    obtain ⟨l', hfrom, hto⟩ := hstep.resumes hstill
    have hwait : ∃ l cv next late, P i.mover l = .wait cv next late ∧ (l' = next ∨ l' ∈ late) := by
      rcases hfrom with ⟨cv, next, late, hb, hor⟩ | hw
      · obtain ⟨l, ha⟩ := hasleep.blocked hb
        exact ⟨l, cv, next, late, ha, hor⟩
      · exact hasleep.woken hw
    obtain ⟨l, cv, next, late, ha, hor⟩ := hwait
    rcases hto with ⟨hfree, howner, hrun⟩ | ⟨howner, hw⟩
    · refine h.of_still hstep (hstep.still hstill) (fun hnone => ?_) fun ht _ => ?_
      · cases hnone.symm.trans howner
      · cases hrun.symm.trans ht
        exact R.wakes ha hor (h.free hfree)
    · refine h.of_still hstep (hstep.still hstill) (fun hnone => ?_) fun ht _ => ?_
      · exact h.free (howner.symm.trans hnone)
      · cases hw.symm.trans ht

/-- What holds in every state of a run. -/
structure Kept (R : Resource P holding) (c : Config T S L C) : Prop where
  exclusive : Exclusive holding c
  asleep : Asleep P c
  holds : R.Holds c

theorem Kept.step (h : Kept R c) (hP : Disciplined P holding) (hstep : Step P c i c') :
    Kept R c' where
  exclusive := h.exclusive.step hP hstep
  asleep := h.asleep.step hstep
  holds := h.holds.step h.asleep h.exclusive hP hstep

theorem Kept.run {c₀ : Config T S L C} {tr : List (Config T S L C × Label T I)}
    (hP : Disciplined P holding) (h : Kept R c₀) (hrun : Run (Step P) c₀ tr c) : Kept R c :=
  hrun.invariant' h fun hkept hstep => hkept.step hP hstep

end Resource

end Steps

/-! ## Debts -/

/-- What the sleepers want, and which condition variables a point owes a broadcast to. -/
structure Debts (R : Resource P holding) where
  -- by the point at which the sleeper will go on
  wants : T → L → S → Prop
  owes : T → L → C → Prop
  keeps : ∀ {t l s l' s' cv}, (P t l).Goes s l' s' → owes t l cv →
    (∀ next, P t l ≠ .broadcast cv next) → owes t l' cv
  raises : ∀ {t l s l' s' u k cv next late}, (holding l = true → R.assertion t l s) →
    (P t l).Goes s l' s' → P u k = .wait cv next late → ¬ wants u next s → wants u next s' →
    owes t l' cv
  sleeps : ∀ {t l s cv next late}, P t l = .wait cv next late → R.assertion t l s →
    ¬ wants t next s ∧ ∀ cv', ¬ owes t l cv'

namespace Debts

variable [DecidableEq T] [DecidableEq C] {c c' : Config T S L C} {i : Label T I}
  {R : Resource P holding} (D : Debts R)

/-- For every sleeper that has what it wants, somebody running owes it a broadcast. -/
def Paid (c : Config T S L C) : Prop :=
  ∀ t cv next late, c.threads t = .blocked cv next late → c.Registered cv t →
    D.wants t next c.shared → ∃ u l, c.threads u = .running l ∧ D.owes u l cv

/-- What holds in every state of a run. -/
structure Settled (c : Config T S L C) : Prop where
  kept : Resource.Kept R c
  paid : D.Paid c

variable {D}

theorem Paid.step (h : D.Paid c) (hkept : Resource.Kept R c) (hP : Disciplined P holding)
    (hstep : Step P c i c') : D.Paid c' := by
  intro t cv next late ht hreg hwants
  rcases hstep.asleep ht with ⟨hmover, ht'⟩ | ⟨rfl, l, hl, ha⟩
  · have hreg' : c.Registered cv t := (hstep.registers hreg).resolve_right hmover
    by_cases hbefore : D.wants t next c.shared
    · -- the debtor is still there, or is the thread that moves
      obtain ⟨u, l, hu, howes⟩ := h t cv next late ht' hreg' hbefore
      by_cases hself : u = i.mover
      · subst hself
        rcases hstep.goes hu with ⟨l', hl', hgoes⟩ | ⟨_, _, _, ha, -, -⟩
        · refine ⟨i.mover, l', hl', D.keeps hgoes howes fun k hk => ?_⟩
          exact hstep.of_broadcast hu hk hreg
        · exact absurd howes ((D.sleeps ha (hkept.holds.owned hu (hP.respects ha).1)).2 cv)
      · exact ⟨u, l, (hstep.others hself).trans hu, howes⟩
    · -- the data have changed, and the thread that moves owes for it
      obtain ⟨k, hk⟩ := hkept.asleep.blocked ht'
      rcases hstep.moves with ⟨l, l', hl, hl', hgoes⟩ | ⟨hshared, -⟩
      · exact ⟨i.mover, l', hl', D.raises (hkept.holds.owned hl) hgoes hk hbefore hwants⟩
      · rw [hshared] at hwants
        exact absurd hwants hbefore
  · -- it has only just fallen asleep
    rw [(hstep.of_wait hl ha).2.2] at hwants
    exact absurd hwants (D.sleeps ha (hkept.holds.owned hl (hP.respects ha).1)).1

/-- **No wake-up is lost** in a run. -/
theorem Settled.run {c₀ : Config T S L C} {tr : List (Config T S L C × Label T I)}
    (hP : Disciplined P holding) (h : D.Settled c₀) (hrun : Run (Step P) c₀ tr c) : D.Settled c :=
  hrun.invariant' h fun hc hstep =>
    ⟨hc.kept.step hP hstep, hc.paid.step hc.kept hP hstep⟩

end Debts

end ShmemUtils.Library.Monitor
