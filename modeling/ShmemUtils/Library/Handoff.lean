import ShmemUtils.Library.Outline

/-!
# Handing over by single signals

Threads wait on a condition variable for something that there is an amount of. Whoever adds to the
amount signals the condition variable, which takes one thread out of it; that thread takes one when
it wakes up. The invariant is a count: while somebody waits who has not been signalled, the amount
is at most the number of those who have been and have not woken up yet, give or take the *credit*
of the owner of the mutex, who may be about to take one or to signal.

The count is kept when each action balances its change of the amount with its change of credit
(`Handoff.Balanced`), and when no signal goes to a waiter that does not take while another one
does (`Handoff.Reaches`).
-/

namespace ShmemUtils.Library.Monitor

variable {T S L C I : Type}

section Steps

variable [DecidableEq T] [DecidableEq C] {P : T → L → Action S L C I} {c c' : Config T S L C}
  {i : Label T I}

/-- The step of a thread that is about to signal: nobody is registered, or one thread is taken out
of the waiters. -/
theorem Step.of_signal (hstep : Step P c i c') {l next : L} {cv : C}
    (ht : c.threads i.mover = .running l) (ha : P i.mover l = .signal cv next) :
    c'.shared = c.shared ∧ c'.threads i.mover = .running next ∧
      ((∀ u, ¬ c'.Registered cv u) ∨
        ∃ u, i = .notify i.mover u ∧ c.Registered cv u ∧ ¬ c'.Registered cv u) := by
  cases hstep with
  | signalNobody ht' ha' hnil =>
    cases ht'.symm.trans ht
    cases ha'.symm.trans ha
    refine ⟨rfl, Config.goto_threads_self _ _ _, Or.inl fun u hu => ?_⟩
    simp [Config.Registered, hnil] at hu
  | @signal t u l next' cv' ht' ha' hu =>
    cases ht'.symm.trans ht
    cases ha'.symm.trans ha
    exact ⟨rfl, Config.goto_threads_self _ _ _, Or.inr ⟨u, rfl, hu, by simp [Config.Registered]⟩⟩
  | notified ht' => cases ht'.symm.trans ht
  | relock ht' => cases ht'.symm.trans ht
  | timedOut ht' => cases ht'.symm.trans ht
  | spurious ht' => cases ht'.symm.trans ht
  | _ ht' ha' =>
    cases ht'.symm.trans ht
    cases ha'.symm.trans ha

/-- The step of a thread that has been notified takes the free mutex. -/
theorem Step.of_notified (hstep : Step P c i c') {next : L} {cv : C} {late : Option L}
    (ht : c.threads i.mover = .blocked cv next late) (hnot : ¬ c.Registered cv i.mover) :
    c.owner = none ∧ c'.shared = c.shared ∧ c'.threads i.mover = .running next := by
  cases hstep with
  | notified ht' _ hfree =>
    cases ht'.symm.trans ht
    exact ⟨hfree, rfl, Config.goto_threads_self _ _ _⟩
  | relock ht' => cases ht'.symm.trans ht
  | timedOut ht' hmem =>
    cases ht'.symm.trans ht
    exact absurd hmem hnot
  | spurious ht' hmem =>
    cases ht'.symm.trans ht
    exact absurd hmem hnot
  | _ ht' ha' => cases ht'.symm.trans ht

end Steps

/-- What is handed over: the condition variable, the amount, the credit of the owner of the mutex
at a point, and whether a thread that wakes up at a point is about to take one. -/
structure Handoff (S L C : Type) where
  cv : C
  amount : S → ℕ
  credit : L → ℕ
  takes : L → Bool

namespace Handoff

variable (H : Handoff S L C)

/-- The thread is registered, and will take one. -/
def Waiting (c : Config T S L C) (t : T) : Prop :=
  c.Registered H.cv t ∧ ∃ next late, c.threads t = .blocked H.cv next late ∧ H.takes next = true

/-- The thread has been notified, has not woken up yet, and will take one. -/
def Summoned (c : Config T S L C) (t : T) : Prop :=
  ¬ c.Registered H.cv t ∧ ∃ next late, c.threads t = .blocked H.cv next late ∧ H.takes next = true

/-- The credit of the owner of the mutex. -/
def creditOf (c : Config T S L C) : ℕ :=
  match c.owner with
  | none => 0
  | some t =>
    match c.threads t with
    | .running l => H.credit l
    | _ => 0

/-- While somebody waits, the amount is covered by threads that have been notified. -/
def Covered (c : Config T S L C) : Prop :=
  ∀ t, H.Waiting c t → ∃ us : List T, us.Nodup ∧ (∀ u ∈ us, H.Summoned c u) ∧
    H.amount c.shared ≤ us.length + H.creditOf c

/-- A signal goes to a thread that takes one, or nobody who does is waiting. -/
def Reaches (c : Config T S L C) (i : Label T I) : Prop :=
  ∀ t u, i = .notify t u → c.Registered H.cv u → H.Waiting c u ∨ ∀ w, ¬ H.Waiting c w

/-- The actions of the program balance the amount with the credit, where `ok` holds. -/
structure Balanced (P : T → L → Action S L C I) (holding : L → Bool) (ok : T → L → S → Prop) :
    Prop where
  -- no credit without the mutex
  free : ∀ {l}, holding l = false → H.credit l = 0
  wakes : ∀ {l}, H.takes l = true → 1 ≤ H.credit l
  move : ∀ {t l s l' s'}, ok t l s → (P t l).Goes s l' s' →
    (∀ next, P t l ≠ .signal H.cv next) →
    H.amount s' = 0 ∨ H.amount s' + H.credit l ≤ H.amount s + H.credit l'
  signal : ∀ {t l next}, P t l = .signal H.cv next → H.credit l ≤ H.credit next + 1
  wait : ∀ {t l s cv next late}, ok t l s → P t l = .wait cv next late →
    H.credit l = 0 ∧ (cv = H.cv → H.takes next = true → H.amount s = 0)

variable {H} {P : T → L → Action S L C I} {holding : L → Bool} {ok : T → L → S → Prop}
  {c c' : Config T S L C} {i : Label T I} {t : T} {l l' : L}

/-! ## The credit of the owner -/

theorem creditOf_of_owner (howner : c.owner = some t) (ht : c.threads t = .running l) :
    H.creditOf c = H.credit l := by
  simp [creditOf, howner, ht]

theorem creditOf_of_free (hfree : c.owner = none) : H.creditOf c = 0 := by
  simp [creditOf, hfree]

theorem Balanced.credit_of_not_owner (hB : H.Balanced P holding ok) (h : Exclusive holding c)
    (ht : c.threads t = .running l) (howner : c.owner ≠ some t) : H.credit l = 0 := by
  apply hB.free
  cases hl : holding l with
  | true => exact absurd ((h.of_running ht).1.mpr hl) howner
  | false => rfl

/-- A running thread has no more credit than the owner. -/
theorem Balanced.credit_le (hB : H.Balanced P holding ok) (h : Exclusive holding c)
    (ht : c.threads t = .running l) : H.credit l ≤ H.creditOf c := by
  by_cases howner : c.owner = some t
  · exact Nat.le_of_eq (creditOf_of_owner howner ht).symm
  · rw [hB.credit_of_not_owner h ht howner]
    exact Nat.zero_le _

/-- **Nothing is left lying**: when the mutex is free and there is something, somebody else has been
notified. -/
theorem Covered.exists_summoned (h : H.Covered c) (hfree : c.owner = none)
    (hamount : 0 < H.amount c.shared) (ht : H.Waiting c t) : ∃ u, u ≠ t ∧ H.Summoned c u := by
  obtain ⟨us, -, hus, hle⟩ := h t ht
  rw [creditOf_of_free hfree] at hle
  cases us with
  | nil =>
    rw [List.length_nil] at hle
    omega
  | cons u us =>
    have hu := hus u List.mem_cons_self
    refine ⟨u, ?_, hu⟩
    intro heq
    subst heq
    exact hu.1 ht.1

/-! ## One step -/

variable [DecidableEq T] [DecidableEq C]

/-- Who waits after a step waited before, or has found nothing. -/
theorem Balanced.waiting_before (hB : H.Balanced P holding ok) (hstep : Step P c i c')
    (hok : Guarded ok c i) (ht : H.Waiting c' t) :
    H.Waiting c t ∨ H.amount c'.shared = 0 := by
  obtain ⟨hreg, next, late, hb, htakes⟩ := ht
  rcases hstep.asleep hb with ⟨hne, hb₀⟩ | ⟨rfl, l, hl, hwait⟩
  · exact Or.inl ⟨(hstep.registers hreg).resolve_right hne, next, late, hb₀, htakes⟩
  · right
    rw [(hstep.of_wait hl hwait).2.2]
    exact (hB.wait (hok l hl) hwait).2 rfl htakes

/-- Who has been notified stays so until it moves. -/
theorem Summoned.after (hu : H.Summoned c t) (hstep : Step P c i c') (hne : t ≠ i.mover) :
    H.Summoned c' t := by
  obtain ⟨hnot, next, late, hb, htakes⟩ := hu
  refine ⟨fun hreg => hnot ((hstep.registers hreg).resolve_right hne), next, late, ?_, htakes⟩
  rw [hstep.others hne]
  exact hb

/-- Before a step the mutex is free, or with the thread that moves, or stays with another one that
keeps its credit. -/
theorem owner_cases (H : Handoff S L C) (h : Exclusive holding c) (h' : Exclusive holding c')
    (hstep : Step P c i c') :
    c.owner = none ∨ (c.owner = some i.mover ∧ ∃ l, c.threads i.mover = .running l) ∨
      (c.owner ≠ some i.mover ∧ c'.owner ≠ some i.mover ∧ H.creditOf c' = H.creditOf c) := by
  cases howner : c.owner with
  | none => exact Or.inl rfl
  | some u =>
    right
    obtain ⟨l, hl, hhold⟩ := h.exists_running howner
    by_cases hu : u = i.mover
    · subst hu
      exact Or.inl ⟨rfl, l, hl⟩
    · right
      have hl' : c'.threads u = .running l := (hstep.others hu).trans hl
      have howner' := (h'.of_running hl').1.mpr hhold
      rw [creditOf_of_owner howner hl, creditOf_of_owner howner' hl', howner']
      simp [hu]

/-- A step that is not a signal changes the amount by the change of credit. -/
theorem Balanced.balance (hB : H.Balanced P holding ok) (h : Exclusive holding c)
    (h' : Exclusive holding c') (hstep : Step P c i c') (hok : Guarded ok c i)
    (hsignal : ∀ l next, c.threads i.mover = .running l → P i.mover l ≠ .signal H.cv next) :
    H.amount c'.shared = 0 ∨
      H.amount c'.shared + H.creditOf c ≤ H.amount c.shared + H.creditOf c' := by
  have howner := owner_cases H h h' hstep
  by_cases hrunning : ∃ l, c.threads i.mover = .running l
  swap
  · -- the thread wakes up, or stops waiting
    right
    rw [hstep.still fun l hl => hrunning ⟨l, hl⟩]
    rcases howner with hfree | ⟨-, hl⟩ | ⟨-, -, hsame⟩
    · rw [creditOf_of_free hfree]
      omega
    · exact absurd hl hrunning
    · exact Nat.le_of_eq (congrArg _ hsame.symm)
  obtain ⟨l, hl⟩ := hrunning
  rcases hstep.goes hl with ⟨l', hl', hgoes⟩ | ⟨cv, next, late, hwait, -, hs⟩
  · apply (hB.move (hok l hl) hgoes fun next => hsignal l next hl).imp_right
    intro hle
    have hcredit := hB.credit_le h' hl'
    rcases howner with hfree | ⟨hown, -⟩ | ⟨hnot, hnot', hsame⟩
    · rw [creditOf_of_free hfree]
      omega
    · rw [creditOf_of_owner hown hl]
      omega
    · rw [hB.credit_of_not_owner h hl hnot, hB.credit_of_not_owner h' hl' hnot'] at hle
      rw [hsame]
      omega
  · right
    rw [hs]
    rcases howner with hfree | ⟨hown, -⟩ | ⟨-, -, hsame⟩
    · rw [creditOf_of_free hfree]
      omega
    · rw [creditOf_of_owner hown hl, (hB.wait (hok l hl) hwait).1]
      omega
    · exact Nat.le_of_eq (congrArg _ hsame.symm)

/-- A signal takes one credit away. -/
theorem Balanced.credit_signal (hB : H.Balanced P holding ok) (h : Exclusive holding c)
    (h' : Exclusive holding c') (hstep : Step P c i c') {next : L}
    (ht : c.threads i.mover = .running l) (ha : P i.mover l = .signal H.cv next)
    (ht' : c'.threads i.mover = .running next) : H.creditOf c ≤ H.creditOf c' + 1 := by
  rcases owner_cases H h h' hstep with hfree | ⟨hown, -⟩ | ⟨-, -, hsame⟩
  · rw [creditOf_of_free hfree]
    exact Nat.zero_le _
  · rw [creditOf_of_owner hown ht]
    exact Nat.le_trans (hB.signal ha) (Nat.add_le_add_right (hB.credit_le h' ht') 1)
  · rw [hsame]
    exact Nat.le_succ _

/-- **A step keeps the amount covered** when it balances, and signals somebody who takes one. -/
theorem Covered.step (h : H.Covered c) (hB : H.Balanced P holding ok) (hexcl : Exclusive holding c)
    (hexcl' : Exclusive holding c') (hstep : Step P c i c') (hok : Guarded ok c i)
    (hreaches : H.Reaches c i) : H.Covered c' := by
  intro t ht
  rcases hB.waiting_before hstep hok ht with hbefore | hzero
  swap
  · refine ⟨[], List.nodup_nil, fun u hu => (by cases hu), ?_⟩
    rw [hzero]
    exact Nat.zero_le _
  obtain ⟨us, hnodup, hus, hle⟩ := h t hbefore
  by_cases hsignal : ∃ l next, c.threads i.mover = .running l ∧ P i.mover l = .signal H.cv next
  · -- the thread that is taken out of the waiters joins those that have been notified
    obtain ⟨l, next, hl, ha⟩ := hsignal
    obtain ⟨hs, hl', hout⟩ := hstep.of_signal hl ha
    rcases hout with hnobody | ⟨u, hlabel, hreg, hreg'⟩
    · exact absurd ht.1 (hnobody t)
    rcases hreaches _ u hlabel hreg with hu | hnone
    swap
    · exact absurd hbefore (hnone t)
    have hmover : ∀ {v}, v = i.mover → ¬ ∃ next late, c.threads v = .blocked H.cv next late := by
      rintro v rfl ⟨next, late, hb⟩
      cases hl.symm.trans hb
    obtain ⟨-, next', late, hb, htakes⟩ := hu
    have hne : u ≠ i.mover := fun heq => hmover heq ⟨_, _, hb⟩
    refine ⟨u :: us, List.nodup_cons.mpr ⟨fun hmem => (hus u hmem).1 hreg, hnodup⟩, ?_, ?_⟩
    · intro v hv
      rcases List.mem_cons.mp hv with rfl | hv
      · exact ⟨hreg', next', late, (hstep.others hne).trans hb, htakes⟩
      · obtain ⟨-, next, late, hbv, -⟩ := hus v hv
        exact (hus v hv).after hstep fun heq => hmover heq ⟨_, _, hbv⟩
    · have hcredit := hB.credit_signal hexcl hexcl' hstep hl ha hl'
      rw [hs, List.length_cons]
      omega
  have hbalance := hB.balance hexcl hexcl' hstep hok fun l next hl ha => hsignal ⟨l, next, hl, ha⟩
  by_cases hmem : i.mover ∈ us
  · -- a thread that has been notified takes the mutex, and owes one
    obtain ⟨hnot, next, late, hb, htakes⟩ := hus _ hmem
    obtain ⟨hfree, hs, hl'⟩ := hstep.of_notified hb hnot
    refine ⟨us.erase i.mover, hnodup.erase _, ?_, ?_⟩
    · intro u hu
      have hne : u ≠ i.mover := (hnodup.mem_erase_iff.mp hu).1
      exact (hus u (List.mem_of_mem_erase hu)).after hstep hne
    · have hone : 1 ≤ H.creditOf c' := 
        Nat.le_trans (hB.wakes htakes) (hB.credit_le hexcl' hl')
      have hlen := List.length_erase_of_mem hmem
      have hpos := List.length_pos_of_mem hmem
      rw [creditOf_of_free hfree] at hle
      rw [hs]
      omega
  · refine ⟨us, hnodup, fun u hu => (hus u hu).after hstep ?_, ?_⟩
    · intro heq
      subst heq
      exact hmem hu
    · omega

end Handoff

end ShmemUtils.Library.Monitor
