import ShmemUtils.Channel.Fifo
import ShmemUtils.Channel.Receives

/-!
# What `wait_for_message` says

`wait_for_message_until` waits for a message or for `dropping`, and does not look which of the two
has ended its wait: it returns `Ok` for both. `wait_for_message_timeout` is the same call, with a
deadline that is computed. A result is decided in one step of its call, and every result that is
returned goes back to such a step of the run.
-/

namespace ShmemUtils.Channel

open ShmemUtils.Library ShmemUtils.Library.Monitor

variable {α : Type} {grow : ℕ → Option ℕ} {t : Tid} {l l' : Pc α} {s s' : Shared α}
  {capacity : ℕ} {c c' : State α} {i : Event α} {tr : Trace α}

/-! ## Where a result comes from -/

/-- In the step the operation that the mover is in decides to return `r`. -/
def Chooses (c : State α) (i : Event α) (c' : State α) (op : Op α) (r : Ret α) : Prop :=
  ∃ h pc pc', c.threads i.mover = .running (.op h op pc) ∧
    c'.threads i.mover = .running (.op h op pc') ∧ pc.result? = none ∧ pc'.result? = some r

/-- A step of the trace, taken by the call `k`, decides to return `r`. -/
def ChosenIn (grow : ℕ → Option ℕ) (tr : Trace α) (k : Call) (op : Op α) (r : Ret α) : Prop :=
  ∃ c i c', (c, i) ∈ tr ∧ Step (program grow) c i c' ∧ i.mover = k.thread ∧
    c.shared.call k.thread = k ∧ Chooses c i c' op r

theorem ChosenIn.cons {k : Call} {op : Op α} {r : Ret α} (h : ChosenIn grow tr k op r) :
    ChosenIn grow ((c, i) :: tr) k op r := by
  obtain ⟨c₁, i₁, c₂, hmem, hrest⟩ := h
  exact ⟨c₁, i₁, c₂, List.mem_cons_of_mem _ hmem, hrest⟩

/-- A thread counts a new call only when it begins one. -/
theorem Moves.call_eq (h : Moves grow t l s l' s') (hl' : ∀ k op, l' ≠ .op k op .start) :
    s'.call t = s.call t := by
  rcases h.history with hh | ⟨k, op, rfl, -⟩ | ⟨k, op, r, -, hh⟩ | ⟨k, op, item, -, hs | hs⟩
  · rw [Shared.call, hh, Shared.call]
  · exact absurd rfl (hl' k op)
  · rw [Shared.call, hh, Shared.call]
  · rw [Shared.call, (pushBack_history hs).1, Shared.call]
  · rw [Shared.call, (popFront_history hs).1, Shared.call]

/-- What a move adds to the results is what its call was about to return. -/
theorem Moves.results (h : Moves grow t l s l' s') {x : Call × Op α × Ret α}
    (hx : x ∈ s'.history.results) :
    x ∈ s.history.results ∨ ∃ k, l = .op k x.2.1 (.ret x.2.2) ∧ x.1 = s.call t := by
  rcases h.history with hh | ⟨k, op, -, hh⟩ | ⟨k, op, r, rfl, hh⟩ | ⟨k, op, item, -, hs | hs⟩
  · rw [hh] at hx
    exact Or.inl hx
  · rw [hh] at hx
    exact Or.inl hx
  · rw [hh] at hx
    rcases List.mem_append.mp hx with hx | hx
    · exact Or.inl hx
    · rw [List.mem_singleton] at hx
      subst hx
      exact Or.inr ⟨k, rfl, rfl⟩
  · rw [(pushBack_history hs).1] at hx
    exact Or.inl hx
  · rw [(popFront_history hs).1] at hx
    exact Or.inl hx

theorem Asked.op_pc {input : Input α} {h : ℕ} {op : Op α} {pc : OpPc α}
    (ha : Asked t s input s' (.op h op pc)) : pc = .start := by
  cases ha
  rfl

/-- Other threads do not count a call when one thread moves. -/
theorem call_others (hstep : Step (program grow) c i c') (hne : t ≠ i.mover) :
    c'.shared.call t = c.shared.call t := by
  rcases hstep.moves with ⟨l, l', -, -, hgoes⟩ | ⟨hs, -⟩
  · exact ((moves_of_goes hgoes).others_history hne.symm).1
  · rw [hs]

/-- What a call has decided, and what it has returned, it has chosen in a step of the run. -/
structure Chosen (grow : ℕ → Option ℕ) (tr : Trace α) (c : State α) : Prop where
  decided : ∀ {t h op pc r}, c.threads t = .running (.op h op pc) → pc.result? = some r →
    ChosenIn grow tr (c.shared.call t) op r
  returned : ∀ {k op r}, (k, op, r) ∈ c.shared.history.results → ChosenIn grow tr k op r

/-- The thread that moves has decided before the step, or decides in it. -/
theorem Chosen.mover (hsound : Sound c) (hchosen : Chosen grow tr c)
    (hstep : Step (program grow) c i c') {h : ℕ} {op : Op α} {pc : OpPc α} {r : Ret α}
    (ht' : c'.threads i.mover = .running (.op h op pc)) (hr : pc.result? = some r) :
    ChosenIn grow ((c, i) :: tr) (c'.shared.call i.mover) op r := by
  -- a sleeper wakes up to evaluate its predicate, and has decided nothing
  have hasleep : ∀ {k : ℕ} {op' : Op α} {late : Bool},
      Pc.op h op pc ≠ .op k op' (.testQueue late) := by
    rintro k op' late heq
    cases heq
    cases hr
  have hrunning : ∃ l, c.threads i.mover = .running l := by
    rcases hstep.arrives ht' with ht | ⟨l, ht, -⟩ | ⟨cv, late, ht⟩ | ht
    · exact ⟨_, ht⟩
    · exact ⟨l, ht⟩
    · have hat := hsound.teardown.at_ i.mover
      rw [ht] at hat
      obtain ⟨k, op', late', heq⟩ := hat.1
      exact absurd heq hasleep
    · have hat := hsound.teardown.at_ i.mover
      rw [ht] at hat
      obtain ⟨k, op', late', heq⟩ := hat
      exact absurd heq hasleep
  obtain ⟨l, ht⟩ := hrunning
  rcases hstep.goes ht with ⟨l', ht'', hgoes⟩ | ⟨cv, next, late, -, hb, -⟩
  · cases ht''.symm.trans ht'
    have hm := moves_of_goes hgoes
    have hcall : c'.shared.call i.mover = c.shared.call i.mover := by
      apply hm.call_eq
      intro k op' heq
      cases heq
      cases hr
    rw [hcall]
    cases hm with
    | asked ha =>
      cases ha.op_pc
      cases hr
    | @op k op pc₀ _ _ _ hgoes' =>
      cases hbefore : pc₀.result? with
      | none =>
        exact ⟨c, i, c', List.mem_cons_self, hstep, rfl, rfl, _, pc₀, pc, ht, ht', hbefore, hr⟩
      | some r₀ =>
        cases (op_result hgoes' hbefore).2.symm.trans hr
        exact (hchosen.decided ht hbefore).cons
    | make hmake => cases hmake
    | drop hdrop => cases hdrop
  · cases hb.symm.trans ht'

theorem Chosen.step (hsound : Sound c) (hchosen : Chosen grow tr c)
    (hstep : Step (program grow) c i c') : Chosen grow ((c, i) :: tr) c' where
  decided {t h op pc r} ht' hr := by
    by_cases hmover : t = i.mover
    · subst hmover
      exact hchosen.mover hsound hstep ht' hr
    · rw [hstep.others hmover] at ht'
      rw [call_others hstep hmover]
      exact (hchosen.decided ht' hr).cons
  returned {k op r} hx := by
    rcases hstep.moves with ⟨l, l', ht, -, hgoes⟩ | ⟨hs, -⟩
    · rcases (moves_of_goes hgoes).results hx with hx | ⟨h, rfl, hk⟩
      · exact (hchosen.returned hx).cons
      · obtain rfl : k = c.shared.call i.mover := hk
        exact (hchosen.decided ht rfl).cons
    · rw [hs] at hx
      exact (hchosen.returned hx).cons

/-- **Every result was chosen by its call**, in a step of the run. -/
theorem chosen_of_run (hrun : Run (Step (program grow)) (initial capacity) tr c) :
    Chosen grow tr c := by
  induction hrun with
  | start =>
    constructor
    · intro t h op pc r ht
      cases ht
    · intro k op r hx
      cases hx
  | next hprev hnext ih => exact ih.step (sound_of_run hprev) hnext

/-! ## What `wait_for_message` has seen -/

/-- The call finds the queue empty and `dropping` set, and leaves its wait. -/
def LeavesEmpty (c : State α) (i : Event α) : Prop :=
  ∃ h late, c.threads i.mover = .running (.op h .waitForMessageUntil (.testDropping late)) ∧
    c.shared.inner.dropping = true ∧ c.shared.inner.queue.items = []

/-- A step of `wait_for_message_until` that decides on `Ok` holds the mutex over a queue that is not
empty; and one that leaves an empty queue because of `dropping` says so. -/
structure Truthful (c : State α) (i : Event α) (c' : State α) : Prop where
  ok : Chooses c i c' .waitForMessageUntil (.waitForMessage (.ok ())) →
    c.owner = some i.mover ∧ c.shared.inner.queue.items ≠ []
  dropped : LeavesEmpty c i →
    Chooses c i c' .waitForMessageUntil (.waitForMessage (.error .queueDropped))

/-- The wait of `wait_for_message_until` is about to read `dropping`, which is set. -/
def EndsByDropping : Pc α → Shared α → Prop
  | .op _ .waitForMessageUntil (.testDropping _), s => s.inner.dropping = true
  | _, _ => False

instance (l : Pc α) (s : Shared α) : Decidable (EndsByDropping l s) :=
  decidable_of_iff
    ((match l with
      | .op _ .waitForMessageUntil (.testDropping _) => s.inner.dropping
      | _ => false) = true)
    (by
      unfold EndsByDropping
      split <;> simp)

/-- `wait_for_message_until` never asks for the counter of senders. -/
def lonelyOutline : Outline (Shared α) Tid (Pc α) where
  global _ := True
  running _ l _ := ∀ h late, l ≠ .op h .waitForMessageUntil (.testPeers late)
  asleep _ l _ := ∃ h op late, l = .op h op (.testQueue late)

theorem Moves.lonely (hm : Moves grow t l s l' s') (h : ℕ) (late : Bool) :
    l' ≠ .op h .waitForMessageUntil (.testPeers late) := by
  rintro rfl
  cases hm with
  | asked ha => cases ha.op_pc
  | op hgoes =>
    -- only the operations that block go on to the counter
    cases opMoves_of_goes hgoes with
    | unready hblocks => cases hblocks
  | make hmake => cases hmake
  | drop hdrop => cases hdrop

theorem lonelyOutline_valid : (lonelyOutline (α := α)).Valid (program grow) NeverTogether
    fun _ _ _ => True where
  own _ _ _ := program_establishes (fun _ _ hm => ⟨trivial, hm.lonely⟩)
    fun h op late _ => ⟨h, op, late, rfl⟩
  wake _ hasleep := by
    obtain ⟨h, op, late, rfl⟩ := hasleep
    intro h' late' heq
    cases heq
  frame _ _ _ _ _ _ hl := hl
  frameAsleep _ _ _ _ _ hasleep := hasleep

theorem lonely_of_run (hrun : Run (Step (program grow)) (initial capacity) tr c) :
    Everywhere (fun c => Sound c ∧ lonelyOutline.Holds c) tr c :=
  lonelyOutline_valid.run hrun (sound_initial capacity) (fun h hstep => h.step hstep)
    (fun h => h.apart) ⟨trivial, fun _ _ _ heq => by cases heq⟩ fun _ _ _ _ => trivial

/-- An operation that decides on `Ok` has seen the queue ready, or `dropping`. -/
theorem seen_of_ok {pc pc' : OpPc α}
    (hgoes : ((.waitForMessageUntil : Op α).action grow t pc).Goes s pc' s')
    (hpc : ∀ late, pc ≠ .testPeers late) (hbefore : pc.result? = none)
    (hafter : pc'.result? = some (.waitForMessage (.ok ()))) :
    pc.holding = true ∧ (¬ Op.Unready .waitForMessageUntil s.inner ∨
      ∃ late, pc = .testDropping late ∧ s.inner.dropping = true) := by
  cases opMoves_of_goes hgoes with
  | ready _ hready => exact ⟨rfl, Or.inl hready⟩
  | released _ hd => exact ⟨rfl, Or.inr ⟨_, rfl, hd⟩⟩
  | disconnected => exact absurd rfl (hpc _)
  | push hitem => cases hitem
  | pop hr => cases hr
  | givesUp hr =>
    cases hr
    cases hafter
  | expires _ hr =>
    cases hr
    cases hafter
  | notify => cases hbefore
  | unlock => cases hbefore
  | _ => cases hafter

/-- A step is truthful unless the wait ends by `dropping` in it. -/
theorem truthful_iff (hsound : Sound c) (hready : (readyOutline none capacity).Holds c)
    (hlonely : lonelyOutline.Holds c) (hstep : Step (program grow) c i c') :
    Truthful c i c' ↔ Guarded (fun _ l s => ¬ EndsByDropping l s) c i := by
  constructor
  · intro htruthful l ht hends
    unfold EndsByDropping at hends
    split at hends
    · next h late =>
      -- the predicate has found the queue empty
      have hempty : c.shared.inner.queue.items = [] :=
        (unready_item_iff rfl).mp ((hready.running ht).2 h _ _ rfl rfl)
      rcases op_of_step hstep ht with ⟨pc', ht', hgoes⟩ | ⟨r, hpc, -⟩ | ⟨hpc, -⟩
      · rw [(action_test grow i.mover late rfl).2.2, goes_read, if_pos hends] at hgoes
        refine (htruthful.ok ⟨h, _, pc', ht, ht', rfl, ?_⟩).2 hempty
        rw [hgoes.2]
        rfl
      · cases hpc
      · cases hpc
    · exact hends
  · intro hnot
    constructor
    · rintro ⟨h, pc, pc', ht, ht', hbefore, hafter⟩
      rcases op_of_step hstep ht with ⟨pc'', ht'', hgoes⟩ | ⟨r, rfl, -⟩ | ⟨-, -, cv, next, late, hb⟩
      · cases ht''.symm.trans ht'
        obtain ⟨hhold, hready' | ⟨late, rfl, hd⟩⟩ := 
          seen_of_ok hgoes (fun late heq => hlonely.running ht h late (by rw [heq])) hbefore hafter
        · exact ⟨(hsound.exclusive.of_running ht).1.mpr hhold,
            fun hnil => hready' ((unready_item_iff rfl).mpr hnil)⟩
        · exact absurd hd (hnot _ ht)
      · cases hbefore
      · cases hb.symm.trans ht'
    · rintro ⟨h, late, ht, hd, -⟩
      exact absurd hd (hnot _ ht)

/-- **`wait_for_message` is truthful** in a run if and only if no wait of the run reads `dropping`
as set; and what it returns is what its call has chosen in a step of the run. -/
theorem wait_truthful_iff (hrun : Run (Step (program grow)) (initial capacity) tr c) :
    (Throughout (fun c i => ∀ c', Step (program grow) c i c' → Truthful c i c') tr ↔
      Throughout (Guarded fun _ l s => ¬ EndsByDropping l s) tr) ∧
    ∀ k r, (k, .waitForMessageUntil, .waitForMessage r) ∈ c.shared.history.results →
      ChosenIn grow tr k .waitForMessageUntil (.waitForMessage r) := by
  have hready := ready_of_run hrun (throughout_agrees_none tr)
  have hlonely := lonely_of_run hrun
  have hboth : Everywhere (fun c => Sound c ∧ (readyOutline none capacity).Holds c ∧
      lonelyOutline.Holds c) tr c :=
    ⟨⟨hready.1.1, hready.1.2, hlonely.1.2⟩,
      fun x hx => ⟨(hready.2 x hx).1, (hready.2 x hx).2, (hlonely.2 x hx).2⟩⟩
  refine ⟨hrun.throughout_iff hboth fun hJ hstep => truthful_iff hJ.1 hJ.2.1 hJ.2.2 hstep, ?_⟩
  intro k r hx
  exact (chosen_of_run hrun).returned hx

/-- A message that is waited for. -/
theorem wait_truthful_sent : ∃ tr, ∃ c : State ℕ,
    Run (Step (program fun _ => none)) (initial 1) tr c ∧
      Throughout (fun c i => ∀ c', Step (program fun _ => none) c i c' → Truthful c i c') tr ∧
      ChosenIn (fun _ => none) tr ⟨⟨0, 1⟩, 1⟩ .waitForMessageUntil (.waitForMessage (.ok ())) := by
  obtain ⟨tr, c, hrun, hok, htest⟩ := exists_run_of_exec (program fun _ => none)
    (fun c i => decide (Guarded (fun _ l s => ¬ EndsByDropping l s) c i)) (initial 1)
    (making ⟨0, 0⟩ 0 .sender ++ making ⟨0, 0⟩ 0 .receiver ++ calling ⟨0, 0⟩ 1 (.trySend 7) 9 ++
      calling ⟨0, 1⟩ 2 .waitForMessageUntil 5)
    (fun c => (⟨⟨0, 1⟩, 1⟩, .waitForMessageUntil, .waitForMessage (.ok ())) ∈
      c.shared.history.results) (by decide)
  obtain ⟨hiff, hreturned⟩ := wait_truthful_iff hrun
  exact ⟨tr, c, hrun, hiff.mpr fun x hx => of_decide_eq_true (hok x hx),
    hreturned _ _ (of_decide_eq_true htest)⟩

/-- A child has made a receiver, and its wait has found the queue empty, when the parent drops the
channel. -/
def forkWaitAndDrop : List (Event ℕ) :=
  .ask ⟨0, 0⟩ .fork :: making ⟨1, 0⟩ 1 .receiver ++ calling ⟨1, 0⟩ 2 .waitForMessageUntil 3 ++
    .ask ⟨0, 0⟩ (.drop 0) :: runs ⟨0, 0⟩ 4

/-- `Ok` is returned, without a message, when `dropping` ends the wait. -/
theorem wait_returns_ok_on_dropping :
    (∃ tr, ∃ c : State ℕ, Run (Step (program fun _ => none)) (initial 1) tr c ∧
      (⟨⟨1, 0⟩, 1⟩, .waitForMessageUntil, .waitForMessage (.ok ())) ∈ c.shared.history.results ∧
      c.shared.history.pushed = []) ∧
    ¬ ∀ tr (c : State ℕ), Run (Step (program fun _ => none)) (initial 1) tr c →
      ∀ i c', Step (program fun _ => none) c i c' → Truthful c i c' := by
  constructor
  · obtain ⟨tr, c, hrun, -, htest⟩ := exists_run_of_exec (program fun _ => none) (fun _ _ => true)
      (initial 1) (forkWaitAndDrop ++ runs ⟨1, 0⟩ 3)
      (fun c => (⟨⟨1, 0⟩, 1⟩, .waitForMessageUntil, .waitForMessage (.ok ())) ∈
        c.shared.history.results ∧ c.shared.history.pushed = []) (by decide)
    exact ⟨tr, c, hrun, of_decide_eq_true htest⟩
  · intro h
    obtain ⟨tr, c, hrun, -, htest⟩ := exists_run_of_exec (program fun _ => none) (fun _ _ => true)
      (initial 1) forkWaitAndDrop
      (fun c => c.threads ⟨1, 0⟩ = .running (.op 2 .waitForMessageUntil (.testDropping false)) ∧
        c.shared.inner.dropping = true) (by decide)
    obtain ⟨ht, hd⟩ := of_decide_eq_true htest
    have hready := (ready_of_run hrun (throughout_agrees_none tr)).1
    have hread := (action_test (fun _ => none) ⟨1, 0⟩ false
      (show Op.waits (.waitForMessageUntil : Op ℕ) = true from rfl)).2.2
    have hstep := step_of_read ht (by simp) hread
    have htruthful := h tr c hrun _ _ hstep
    exact (truthful_iff hready.1 hready.2 (lonely_of_run hrun).1.2 hstep).mp htruthful _ ht hd

end ShmemUtils.Channel
