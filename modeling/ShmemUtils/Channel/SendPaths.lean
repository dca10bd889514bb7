import ShmemUtils.Library.Solitary
import ShmemUtils.Channel.Readiness

/-!
# The three sends compared

`try_send_once`, `try_send_until` and `try_send` test the queue, the receivers and `dropping` in
ladders of their own. What each returns to a thread that moves alone is computed here from its
points: a call that waits asks for the receivers as soon as it has found the queue full, while
`try_send_once` does not ask for them then.
-/

namespace ShmemUtils.Channel

open ShmemUtils.Library ShmemUtils.Library.Monitor

variable {α : Type} {grow : ℕ → Option ℕ} {t : Tid} {h : ℕ} {op : Op α} {item : α}
  {inner₀ : Inner α} {pc pc' : OpPc α} {s s' : Shared α} {c₀ c c' : State α} {r : Ret α}
  {q : VecDeque α}

/-- A call of `op` by `t` that begins in `c`, while no other thread moves, can return `r` and leave
the queue `q`. -/
def Returns (grow : ℕ → Option ℕ) (t : Tid) (h : ℕ) (op : Op α) (c : State α) (r : Ret α)
    (q : VecDeque α) : Prop :=
  ∃ tr c', Run (Step (program grow)) (c.goto t (.running (.op h op .start))) tr c' ∧
    Throughout (Unaided t) tr ∧ c'.threads t = .running (.op h op (.ret r)) ∧
      c'.shared.inner.queue = q

/-- The ladder of a send: what it returns and the queue that it leaves, or `none` when it waits for
ever. -/
def Op.answer (op : Op α) (item : α) (inner : Inner α) : Option (Ret α × VecDeque α) :=
  if inner.dropping = true then some (op.dropped, inner.queue)
  else if op.Unready inner ∧ (op.waits = true → inner.receivers ≠ 0) then
    op.expired.map fun r => (r, inner.queue)
  else if inner.receivers = 0 then some (op.dropped, inner.queue)
  else some (op.success, { inner.queue with items := inner.queue.items ++ [item] })

namespace Op

theorem answer_dropping (hd : inner₀.dropping = true) :
    op.answer item inner₀ = some (op.dropped, inner₀.queue) :=
  if_pos hd

theorem answer_expired (hd : inner₀.dropping = false) (hunready : op.Unready inner₀)
    (hpeers : op.waits = true → inner₀.receivers ≠ 0) :
    op.answer item inner₀ = op.expired.map fun r => (r, inner₀.queue) := by
  simp only [answer, hd, Bool.false_eq_true, if_false]
  rw [if_pos ⟨hunready, hpeers⟩]

theorem answer_alone (hd : inner₀.dropping = false)
    (hwaits : op.Unready inner₀ → op.waits = true) (hpeers : inner₀.receivers = 0) :
    op.answer item inner₀ = some (op.dropped, inner₀.queue) := by
  simp only [answer, hd, Bool.false_eq_true, if_false]
  rw [if_neg fun hboth => hboth.2 (hwaits hboth.1) hpeers, if_pos hpeers]

theorem answer_sent (hd : inner₀.dropping = false) (hready : ¬ op.Unready inner₀)
    (hpeers : inner₀.receivers ≠ 0) :
    op.answer item inner₀ =
      some (op.success, { inner₀.queue with items := inner₀.queue.items ++ [item] }) := by
  simp only [answer, hd, Bool.false_eq_true, if_false]
  rw [if_neg fun hboth => hready hboth.1, if_neg hpeers]

theorem waits_of_item (hitem : op.item? = some item) (hblocks : op.blocks = true) :
    op.waits = true := by
  cases op <;> first | exact hblocks | cases hitem

theorem resume_of_item (hitem : op.item? = some item) : op.resume = .readPeers := by
  cases op <;> first | rfl | cases hitem

end Op

/-! ## What a call knows at its points -/

/-- What the call has found out of the `Inner` that it began with. -/
def OpPc.Finds (op : Op α) (item : α) (inner₀ inner : Inner α) : OpPc α → Prop
  | .start => inner = inner₀
  | .lock => inner = inner₀ ∧ inner.dropping = false
  | .testQueue _ => inner = inner₀ ∧ inner.dropping = false
  | .testPeers _ => inner = inner₀ ∧ inner.dropping = false ∧ op.waits = true ∧ op.Unready inner
  | .testDropping _ => inner = inner₀ ∧ inner.dropping = false ∧ op.waits = true ∧
      op.Unready inner ∧ inner.receivers ≠ 0
  | .sleep => inner = inner₀ ∧ inner.dropping = false ∧ op.waits = true ∧
      op.Unready inner ∧ inner.receivers ≠ 0
  | .readPeers => inner = inner₀ ∧ inner.dropping = false ∧
      (op.Unready inner → op.waits = true ∧ inner.receivers = 0)
  | .readDropping => inner = inner₀ ∧ inner.dropping = false ∧ ¬ op.Unready inner ∧
      inner.receivers ≠ 0
  | .transfer => inner = inner₀ ∧ inner.dropping = false ∧ ¬ op.Unready inner ∧
      inner.receivers ≠ 0
  | .notify r => op.answer item inner₀ = some (r, inner.queue)
  | .unlock r => op.answer item inner₀ = some (r, inner.queue)
  | .ret r => op.answer item inner₀ = some (r, inner.queue)

/-- A move of a send takes what the call knows on to the next point, when the lock attempt
succeeds. -/
theorem OpMoves.finds (hm : OpMoves grow t op pc s pc' s') (hitem : op.item? = some item)
    (hlock : pc = .lock → pc' = .testQueue false) (hfinds : pc.Finds op item inner₀ s.inner) :
    pc'.Finds op item inner₀ s'.inner := by
  have hside : op.side = .space := Op.side_of_item hitem
  have hpeers : op.side.peers s.inner = s.inner.receivers := by rw [hside]; rfl
  cases hm with
  | begins hd => exact ⟨hfinds, hd⟩
  | dropped hd =>
    subst hfinds
    exact Op.answer_dropping hd
  | locked => exact hfinds
  | lockedOnce hop =>
    subst hop
    cases hitem
  | retries => cases hlock rfl
  | givesUp => cases hlock rfl
  | ready _ hready =>
    rw [Op.resume_of_item hitem]
    exact ⟨hfinds.1, hfinds.2, fun hunready => absurd hunready hready⟩
  | full hop hunready =>
    obtain ⟨rfl, hd⟩ := hfinds
    subst hop
    exact Op.answer_expired hd hunready fun hwaits => by cases hwaits
  | unready hblocks hunready =>
    exact ⟨hfinds.1, hfinds.2, Op.waits_of_item hitem hblocks, hunready⟩
  | lonely hop =>
    subst hop
    cases hitem
  | disconnected hwaits hzero =>
    rw [Op.resume_of_item hitem]
    exact ⟨hfinds.1, hfinds.2.1, fun _ => ⟨hwaits, hpeers ▸ hzero⟩⟩
  | connected _ hpos =>
    obtain ⟨hinner, hd, hwaits, hunready⟩ := hfinds
    exact ⟨hinner, hd, hwaits, hunready, hpeers ▸ hpos⟩
  | released _ hd =>
    rw [hfinds.2.1] at hd
    cases hd
  | sleeps => exact hfinds
  | expires _ hr =>
    obtain ⟨rfl, hd, -, hunready, hpos⟩ := hfinds
    exact (Op.answer_expired hd hunready fun _ => hpos).trans (by rw [hr]; rfl)
  | alone _ hzero =>
    obtain ⟨rfl, hd, hwaits⟩ := hfinds
    exact Op.answer_alone hd (fun hunready => (hwaits hunready).1) (hpeers ▸ hzero)
  | accompanied hpos =>
    obtain ⟨hinner, hd, hwaits⟩ := hfinds
    rw [hpeers] at hpos
    exact ⟨hinner, hd, fun hunready => hpos (hwaits hunready).2, hpos⟩
  | readDropped hd =>
    rw [hfinds.2.1] at hd
    cases hd
  | goesOn => exact hfinds
  | nothing hop =>
    subst hop
    cases hitem
  | push hitem' hs =>
    obtain ⟨rfl, hd, hready, hpos⟩ := hfinds
    obtain rfl := Option.some.inj (hitem'.symm.trans hitem)
    obtain ⟨queue, hqueue, hinner⟩ := pushBack_inner hs
    have hroom : s.inner.queue.remainingCapacity ≠ 0 := by
      simpa [Op.Unready, hside, Side.queueReady] using hready
    rw [VecDeque.pushBack, if_pos hroom] at hqueue
    cases hqueue
    rw [OpPc.Finds, hinner]
    exact Op.answer_sent hd hready hpos
  | pushFails _ hnone =>
    refine absurd hnone (pushBack_of_ready _ ?_)
    simpa [Op.Unready, hside] using hfinds.2.2.1
  | pop hr => cases op <;> cases hr <;> cases hitem
  | popNothing hop =>
    subst hop
    cases hitem
  | popFails hop =>
    subst hop
    cases hitem
  | popNone hop =>
    subst hop
    cases hitem
  | notify => exact hfinds
  | unlock => exact hfinds

/-- Without contention a send has the mutex after its lock attempt. -/
theorem locks_of_uncontended (hitem : op.item? = some item)
    (hgoes : (op.action grow t .lock).uncontended.Goes s pc' s') : pc' = .testQueue false := by
  cases op with
  | trySend _ => exact or_self_iff.mp hgoes.2
  | trySendUntil _ => exact or_self_iff.mp hgoes.2
  | trySendOnce _ => exact or_self_iff.mp hgoes.2
  | _ => cases hitem

/-- The outline of a call. -/
def sendOutline (h : ℕ) (op : Op α) (item : α) (inner₀ : Inner α) :
    Outline (Shared α) Tid (Pc α) where
  global _ := True
  running _ l s := l = .idle ∨ ∃ pc, l = .op h op pc ∧ pc.Finds op item inner₀ s.inner
  asleep _ l s := ∃ late, l = .op h op (.testQueue late) ∧
    OpPc.Finds op item inner₀ s.inner .sleep

theorem sendOutline_own (hitem : op.item? = some item) {l : Pc α}
    (hl : (sendOutline h op item inner₀).running t l s) :
    (program grow t l).uncontended.Establishes s ((sendOutline h op item inner₀).running t)
      ((sendOutline h op item inner₀).asleep t) := by
  rcases hl with rfl | ⟨pc, rfl, hfinds⟩
  · trivial
  by_cases hpc : ∃ r, pc = .ret r
  · obtain ⟨r, rfl⟩ := hpc
    exact Or.inl rfl
  rw [program_op fun r heq => hpc ⟨r, heq⟩, Action.uncontended_map, Action.establishes_map]
  refine Action.uncontended_establishes (fun pc' s' hgoes => Or.inr ⟨pc', rfl, ?_⟩) ?_
  · refine (opMoves_of_goes (Action.goes_of_uncontended hgoes)).finds hitem (fun hlock => ?_) hfinds
    subst hlock
    exact locks_of_uncontended hitem hgoes
  · intro cv next late hwait
    obtain ⟨rfl, rfl, hlate⟩ := op_wait hwait
    exact ⟨⟨false, rfl, hfinds⟩, fun pc' hpc' => ⟨true, by rw [hlate pc' hpc'], hfinds⟩⟩

theorem sendOutline_wake {l : Pc α} (hl : (sendOutline h op item inner₀).asleep t l s) :
    (sendOutline h op item inner₀).running t l s := by
  obtain ⟨late, rfl, hinner, hd, -⟩ := hl
  exact Or.inr ⟨_, rfl, hinner, hd⟩

/-- A thread that is alone in its call, and knows what the call has found. -/
structure Sending (t : Tid) (h : ℕ) (op : Op α) (item : α) (inner₀ : Inner α) (c : State α) :
    Prop where
  solitary : Solitary Pc.holding t c
  finds : (sendOutline h op item inner₀).At t c.shared (c.threads t)

theorem Sending.begin (hfree : c.owner = none) :
    Sending t h op item c.shared.inner (c.goto t (.running (.op h op .start))) where
  solitary := (Solitary.running_iff (Config.goto_threads_self _ _ _)).mpr hfree
  finds := by
    rw [Config.goto_threads_self]
    exact Or.inr ⟨.start, rfl, rfl⟩

theorem Sending.step (hsending : Sending t h op item inner₀ c) (hitem : op.item? = some item)
    {i : Event α} (hunaided : Unaided t c i) (hstep : Step (program grow) c i c') :
    Sending t h op item inner₀ c' where
  solitary := hsending.solitary.step (disciplined grow) hunaided.1 hstep
  finds := hsending.solitary.outline (disciplined grow) (sendOutline_own hitem) sendOutline_wake
    hsending.finds hunaided hstep

/-- **A send returns what its ladder says.** -/
theorem answer_of_returns (hitem : op.item? = some item) (hfree : c.owner = none)
    (h : Returns grow t h op c r q) : op.answer item c.shared.inner = some (r, q) := by
  obtain ⟨tr, c', hrun, hunaided, ht, rfl⟩ := h
  have hsending := hrun.invariant (Sending.begin hfree)
    (fun hsending hi hstep => hsending.step hitem hi hstep) hunaided
  have hfinds := hsending.finds
  rw [ht] at hfinds
  rcases hfinds with heq | ⟨pc, heq, hpc⟩
  · cases heq
  · cases heq
    exact hpc

/-! ## Every answer is returned -/

namespace OpPc

/-- How far the point is from the return, when a sleep is ended by its time-out. -/
def distance : OpPc α → ℕ
  | .start => 17
  | .lock => 16
  | .testQueue late => if late then 9 else 15
  | .testPeers late => if late then 8 else 14
  | .testDropping late => if late then 7 else 13
  | .sleep => 12
  | .readPeers => 6
  | .readDropping => 5
  | .transfer => 4
  | .notify _ => 3
  | .unlock _ => 2
  | .ret _ => 1

end OpPc

/-- The same for a thread in a call. -/
def remaining : Thread (Pc α) Side → ℕ
  | .running (.op _ _ pc) => pc.distance
  | .running _ => 0
  | .blocked _ _ _ => 11
  | .woken (.op _ _ pc) => pc.distance + 1
  | .woken _ => 0

/-- After its time-out a wait does not fall asleep again. -/
theorem not_late_of_sleeps (hexpired : op.expired ≠ none) {late : Bool}
    (hgoes : (op.action grow t (.testDropping late)).Goes s .sleep s') : late = false := by
  by_contra hlate
  rw [Bool.not_eq_false] at hlate
  subst hlate
  have hwaits : op.waits = true := by
    cases op with
    | tryReceiveOnce => exact absurd hgoes id
    | trySendOnce _ => exact absurd hgoes id
    | _ => rfl
  rw [(action_test grow t true hwaits).2.2] at hgoes
  obtain ⟨r, hr⟩ := Option.ne_none_iff_exists'.mp hexpired
  have hpc := (goes_read.mp hgoes).2
  rw [hr] at hpc
  split at hpc
  · cases op <;> cases hpc
  · cases hpc

/-- The moves of a send bring it nearer to its return, but for those that go back to its start. -/
theorem OpMoves.distance_lt (hm : OpMoves grow t op pc s pc' s') (hitem : op.item? = some item)
    (hlock : pc = .lock → pc' = .testQueue false)
    (hsleep : ∀ late, pc = .testDropping late → pc' = .sleep → late = false) :
    pc'.distance < pc.distance := by
  have hresume := Op.resume_of_item hitem
  cases hm with
  | lockedOnce hop =>
    subst hop
    cases hitem
  | retries => cases hlock rfl
  | givesUp => cases hlock rfl
  | @ready late =>
    rw [hresume]
    cases late <;> simp [OpPc.distance]
  | @full _ late => cases late <;> simp [OpPc.distance]
  | @unready late => cases late <;> simp [OpPc.distance]
  | lonely hop =>
    subst hop
    cases hitem
  | @disconnected late =>
    rw [hresume]
    cases late <;> simp [OpPc.distance]
  | @connected late => cases late <;> simp [OpPc.distance]
  | @released late =>
    rw [hresume]
    cases late <;> simp [OpPc.distance]
  | sleeps =>
    obtain rfl := hsleep _ rfl rfl
    simp [OpPc.distance]
  | popNone hop =>
    subst hop
    cases hitem
  | _ => simp [OpPc.distance]

/-- The wait of an operation ends at the deadline of the operation. -/
theorem late_of_wait {cv : Side} {next : OpPc α} {late : Option (OpPc α)}
    (hwait : op.action grow t pc = .wait cv next late) (hexpired : op.expired ≠ none) :
    late = some (.testQueue true) := by
  cases op <;> cases pc <;> cases hwait <;> first | rfl | exact absurd rfl hexpired

/-- The thread is in its call, and has a deadline when it sleeps. -/
def InCall (t : Tid) (h : ℕ) (op : Op α) (c : State α) : Prop :=
  match c.threads t with
  | .running l => ∃ pc, l = .op h op pc
  | .blocked _ _ late => late = some (.op h op (.testQueue true))
  | .woken next => ∃ late, next = .op h op (.testQueue late)

/-- A send does something at each of its points, where one that does not wait never looks for
receivers in a predicate. -/
theorem op_acts (hitem : op.item? = some item) (hpc : ∀ r, pc ≠ .ret r)
    (hwaits : (∃ late, pc = .testPeers late ∨ pc = .testDropping late) ∨ pc = .sleep →
      op.waits = true) :
    (op.action grow t pc).Acts := by
  cases op with
  | trySend _ =>
    cases pc with
    | ret r => exact absurd rfl (hpc r)
    | _ => trivial
  | trySendUntil _ =>
    cases pc with
    | ret r => exact absurd rfl (hpc r)
    | _ => trivial
  | trySendOnce _ =>
    cases pc with
    | ret r => exact absurd rfl (hpc r)
    | testPeers late => cases hwaits (Or.inl ⟨late, Or.inl rfl⟩)
    | testDropping late => cases hwaits (Or.inl ⟨late, Or.inr rfl⟩)
    | sleep => cases hwaits (Or.inr rfl)
    | _ => trivial
  | _ => cases hitem

/-- A call with an answer has a deadline where it is about to sleep. -/
theorem expired_of_sleep (hanswer : op.answer item inner₀ ≠ none)
    (hfinds : OpPc.Finds op item inner₀ s.inner .sleep) : op.expired ≠ none := by
  obtain ⟨rfl, hd, -, hunready, hpos⟩ := hfinds
  rw [Op.answer_expired hd hunready fun _ => hpos] at hanswer
  exact fun hnone => hanswer (by rw [hnone]; rfl)

/-- From a point of its code, the call goes to another one, or to sleep until its deadline. -/
theorem Sending.exists_move (hsending : Sending t h op item inner₀ c)
    (hitem : op.item? = some item) (hanswer : op.answer item inner₀ ≠ none)
    (hth : c.threads t = .running (.op h op pc)) (hpc : ∀ r, pc ≠ .ret r) :
    ∃ i c', Unaided t c i ∧ Step (program grow) c i c' ∧ InCall t h op c' ∧
      remaining (c'.threads t) < remaining (c.threads t) := by
  have hfinds : pc.Finds op item inner₀ c.shared.inner := by
    have hat := hsending.finds
    rw [hth] at hat
    rcases hat with heq | ⟨pc', heq, hfinds⟩
    · cases heq
    · cases heq
      exact hfinds
  have hprogram : program grow t (.op h op pc) = (op.action grow t pc).map (.op h op) :=
    program_op hpc
  have hwaits : (∃ late, pc = .testPeers late ∨ pc = .testDropping late) ∨ pc = .sleep →
      op.waits = true := by
    rintro (⟨late, rfl | rfl⟩ | rfl)
    · exact hfinds.2.2.1
    · exact hfinds.2.2.1
    · exact hfinds.2.2.1
  obtain ⟨i, c', hunaided, hstep⟩ := hsending.solitary.exists_step (disciplined grow) hth
    (by rw [hprogram]; exact Action.acts_map.mpr (op_acts hitem hpc hwaits))
  refine ⟨i, c', hunaided, hstep, ?_⟩
  rcases hsending.solitary.goes (disciplined grow) hunaided hstep hth with
    ⟨l', ht', hgoes⟩ | ⟨cv, next, late, hwait, ht', -⟩
  · rw [hprogram, Action.uncontended_map] at hgoes
    obtain ⟨pc', rfl, hgoes'⟩ := Action.goes_map hgoes
    rw [InCall, ht', hth]
    refine ⟨⟨pc', rfl⟩, ?_⟩
    have hmoves := Action.goes_of_uncontended hgoes'
    refine (opMoves_of_goes hmoves).distance_lt hitem (fun hlock => ?_) fun late hpc hsleep => ?_
    · subst hlock
      exact locks_of_uncontended hitem hgoes'
    · subst hpc
      subst hsleep
      exact not_late_of_sleeps (expired_of_sleep hanswer hfinds) hmoves
  · rw [hprogram] at hwait
    obtain ⟨next', late', hwait', rfl, rfl⟩ := Action.map_eq_wait hwait
    obtain ⟨rfl, -⟩ := op_wait hwait'
    rw [InCall, ht', hth, late_of_wait hwait' (expired_of_sleep hanswer hfinds)]
    exact ⟨rfl, Nat.lt_succ_self _⟩

/-- A call with an answer can take a step towards its return. -/
theorem Sending.exists_step (hsending : Sending t h op item inner₀ c)
    (hitem : op.item? = some item) (hin : InCall t h op c) (hanswer : op.answer item inner₀ ≠ none)
    (hnot : ∀ r, c.threads t ≠ .running (.op h op (.ret r))) :
    ∃ i c', Unaided t c i ∧ Step (program grow) c i c' ∧ InCall t h op c' ∧
      remaining (c'.threads t) < remaining (c.threads t) := by
  cases hth : c.threads t with
  | running l =>
    rw [InCall, hth] at hin
    obtain ⟨pc, rfl⟩ := hin
    rw [← hth]
    refine hsending.exists_move hitem hanswer hth ?_
    rintro r rfl
    exact hnot r hth
  | blocked cv next late =>
    rw [InCall, hth] at hin
    subst hin
    obtain ⟨i, c', hunaided, hstep, ht', -⟩ := hsending.solitary.exists_timedOut hth
    refine ⟨i, c', hunaided, hstep, ?_, ?_⟩
    · rw [InCall, ht']
      exact ⟨true, rfl⟩
    · rw [ht']
      simp [remaining, OpPc.distance]
  | woken next =>
    rw [InCall, hth] at hin
    obtain ⟨late, rfl⟩ := hin
    obtain ⟨i, c', hunaided, hstep, ht', -⟩ := hsending.solitary.exists_relock hth
    refine ⟨i, c', hunaided, hstep, ?_, ?_⟩
    · rw [InCall, ht']
      exact ⟨_, rfl⟩
    · rw [ht']
      exact Nat.lt_succ_self _

/-- **A send returns, when nothing else runs, what its ladder says and nothing else.** -/
theorem returns_iff (hitem : op.item? = some item) (hfree : c.owner = none) :
    Returns grow t h op c r q ↔ op.answer item c.shared.inner = some (r, q) := by
  refine ⟨answer_of_returns hitem hfree, fun hanswer => ?_⟩
  have hsome : op.answer item c.shared.inner ≠ none := by
    rw [hanswer]
    exact Option.some_ne_none _
  have hstart : InCall t h op (c.goto t (.running (.op h op .start))) := by
    rw [InCall, Config.goto_threads_self]
    exact ⟨.start, rfl⟩
  have hnext : ∀ {c'}, Sending t h op item c.shared.inner c' ∧ InCall t h op c' →
      (¬ ∃ r, c'.threads t = .running (.op h op (.ret r))) → ∃ i c'', Unaided t c' i ∧
        Step (program grow) c' i c'' ∧
          (Sending t h op item c.shared.inner c'' ∧ InCall t h op c'') ∧
          remaining (c''.threads t) < remaining (c'.threads t) := by
    intro c' hJ hgoal
    obtain ⟨i, c'', hi, hstep, hin, hlt⟩ :=
      hJ.1.exists_step hitem hJ.2 hsome fun r ht => hgoal ⟨r, ht⟩
    exact ⟨i, c'', hi, hstep, ⟨hJ.1.step hitem hi hstep, hin⟩, hlt⟩
  obtain ⟨tr, c', hrun, hunaided, -, -, r', ht'⟩ := Run.reaches (fun c' => remaining (c'.threads t))
    hnext .start (throughout_nil (Unaided t)) ⟨Sending.begin hfree, hstart⟩
  have hreturns : Returns grow t h op c r' c'.shared.inner.queue :=
    ⟨tr, c', hrun, hunaided, ht', rfl⟩
  -- the ladder has one answer only
  have heq := (answer_of_returns hitem hfree hreturns).symm.trans hanswer
  cases heq
  exact hreturns

/-! ## Where the sends agree -/

/-- What a send without waiting comes to: the item is refused without receivers or under `dropping`,
taken where there is room, and late otherwise. -/
def Inner.sendOutcome (inner : Inner α) (item : α) :
    Except (TrySendError α) Unit × VecDeque α :=
  if inner.receivers = 0 ∨ inner.dropping = true then (.error (.noReceivers item), inner.queue)
  else if inner.queue.remainingCapacity ≠ 0 then
    (.ok (), { inner.queue with items := inner.queue.items ++ [item] })
  else (.error (.timedOut item), inner.queue)

/-- The three sends come to the same outcome, where `try_send` waits for ever instead of running out
of time. The time-out of `try_send_until` is due whenever it waits. -/
structure SendsAgree (grow : ℕ → Option ℕ) (t : Tid) (h : ℕ) (item : α) (c : State α) : Prop where
  once : ∀ r q, Returns grow t h (.trySendOnce item) c r q ↔
    (r, q) = (.trySend (c.shared.inner.sendOutcome item).1, (c.shared.inner.sendOutcome item).2)
  until_expired : ∀ r q, Returns grow t h (.trySendUntil item) c r q ↔
    (r, q) = (.trySend (c.shared.inner.sendOutcome item).1, (c.shared.inner.sendOutcome item).2)
  unless_blocked : ∀ r q, Returns grow t h (.trySend item) c r q ↔
    (c.shared.inner.sendOutcome item).1 ≠ .error (.timedOut item) ∧
      (r, q) = (.send ((c.shared.inner.sendOutcome item).1.mapError fun _ => item),
        (c.shared.inner.sendOutcome item).2)

theorem unready_space_iff (hside : op.side = .space) {inner : Inner α} :
    op.Unready inner ↔ inner.queue.remainingCapacity = 0 := by
  simp [Op.Unready, hside, Side.queueReady]

/-- A call that waits asks for the receivers before its time runs out. -/
theorem answer_trySendUntil (inner : Inner α) :
    (Op.trySendUntil item).answer item inner =
      some (.trySend (inner.sendOutcome item).1, (inner.sendOutcome item).2) := by
  have hunready : (Op.trySendUntil item).Unready inner ↔ inner.queue.remainingCapacity = 0 :=
    unready_space_iff rfl
  have hwaits : (Op.trySendUntil item).waits = true := rfl
  by_cases hd : inner.dropping = true <;> by_cases hr : inner.receivers = 0 <;>
    by_cases hfull : inner.queue.remainingCapacity = 0 <;>
    simp [Op.answer, Inner.sendOutcome, hunready, hwaits, hd, hr, hfull, Op.dropped, Op.expired,
      Op.success]

theorem answer_trySend (inner : Inner α) (r : Ret α) (q : VecDeque α) :
    (Op.trySend item).answer item inner = some (r, q) ↔
      (inner.sendOutcome item).1 ≠ .error (.timedOut item) ∧
        (r, q) = (.send ((inner.sendOutcome item).1.mapError fun _ => item),
          (inner.sendOutcome item).2) := by
  have hunready : (Op.trySend item).Unready inner ↔ inner.queue.remainingCapacity = 0 :=
    unready_space_iff rfl
  have hwaits : (Op.trySend item).waits = true := rfl
  by_cases hd : inner.dropping = true <;> by_cases hr : inner.receivers = 0 <;>
    by_cases hfull : inner.queue.remainingCapacity = 0 <;>
    simp [Op.answer, Inner.sendOutcome, hunready, hwaits, hd, hr, hfull, Op.dropped, Op.expired,
      Op.success, Except.mapError, eq_comm]

/-- `try_send_once` does not ask for the receivers of a full queue. -/
theorem answer_trySendOnce_iff (item : α) (inner : Inner α) :
    (Op.trySendOnce item).answer item inner =
        some (.trySend (inner.sendOutcome item).1, (inner.sendOutcome item).2) ↔
      inner.dropping = true ∨ inner.receivers ≠ 0 ∨ inner.queue.remainingCapacity ≠ 0 := by
  have hunready : (Op.trySendOnce item).Unready inner ↔ inner.queue.remainingCapacity = 0 :=
    unready_space_iff rfl
  have hwaits : (Op.trySendOnce item).waits = false := rfl
  by_cases hd : inner.dropping = true <;> by_cases hr : inner.receivers = 0 <;>
    by_cases hfull : inner.queue.remainingCapacity = 0 <;>
    simp [Op.answer, Inner.sendOutcome, hunready, hwaits, hd, hr, hfull, Op.dropped, Op.expired,
      Op.success]

/-- **The sends agree** on a state unless the queue is full, nobody can receive and `dropping` is
not set. -/
theorem sends_agree_iff (hfree : c.owner = none) :
    SendsAgree grow t h item c ↔ c.shared.inner.dropping = true ∨ c.shared.inner.receivers ≠ 0 ∨
      c.shared.inner.queue.remainingCapacity ≠ 0 := by
  rw [← answer_trySendOnce_iff item]
  constructor
  · intro hagree
    exact answer_of_returns rfl hfree ((hagree.once _ _).mpr rfl)
  · intro honce
    constructor
    · intro r q
      rw [returns_iff rfl hfree, honce, Option.some.injEq, eq_comm]
    · intro r q
      rw [returns_iff rfl hfree, answer_trySendUntil, Option.some.injEq, eq_comm]
    · intro r q
      rw [returns_iff rfl hfree, answer_trySend]

/-- A sender fills a queue of one item, and there is a receiver. -/
def fill : List (Event ℕ) :=
  making ⟨0, 0⟩ 0 .sender ++ making ⟨0, 0⟩ 0 .receiver ++ calling ⟨0, 0⟩ 1 (.trySend 7) 9

/-- On a full queue with a receiver the sends of another item agree: it is late. -/
theorem sends_agree_full :
    ∃ tr, ∃ c : State ℕ, Run (Step (program fun _ => none)) (initial 1) tr c ∧ c.owner = none ∧
      c.threads ⟨0, 0⟩ = .running .idle ∧ c.shared.inner = ⟨⟨[7], 1⟩, 1, 1, false, 0⟩ ∧
      SendsAgree (fun _ => none) ⟨0, 0⟩ 1 8 c ∧
      c.shared.inner.sendOutcome 8 = (.error (.timedOut 8), ⟨[7], 1⟩) := by
  obtain ⟨tr, c, hrun, -, htest⟩ := exists_run_of_exec (program fun _ => none) (fun _ _ => true)
    (initial 1) fill
    (fun c => c.owner = none ∧ c.threads ⟨0, 0⟩ = .running .idle ∧
      c.shared.inner = ⟨⟨[7], 1⟩, 1, 1, false, 0⟩) (by decide)
  obtain ⟨hfree, hidle, hinner⟩ := of_decide_eq_true htest
  have hreceiver : c.shared.inner.receivers ≠ 0 := by simp [hinner]
  refine ⟨tr, c, hrun, hfree, hidle, hinner, ?_, by rw [hinner]; rfl⟩
  exact (sends_agree_iff hfree).mpr (Or.inr (Or.inl hreceiver))

/-- A queue of one item is filled, and then its receiver is dropped. -/
def fillAndDisconnect : List (Event ℕ) := fill ++ dropping ⟨0, 0⟩ 2 4

/-- On a full queue without receivers `try_send_once` runs out of time, where `try_send_until`
reports that there are none. -/
theorem try_send_once_times_out :
    ∃ tr, ∃ c : State ℕ, Run (Step (program fun _ => none)) (initial 1) tr c ∧ c.owner = none ∧
      c.threads ⟨0, 0⟩ = .running .idle ∧
      Returns (fun _ => none) ⟨0, 0⟩ 1 (.trySendOnce 8) c (.trySend (.error (.timedOut 8)))
        ⟨[7], 1⟩ ∧
      Returns (fun _ => none) ⟨0, 0⟩ 1 (.trySendUntil 8) c (.trySend (.error (.noReceivers 8)))
        ⟨[7], 1⟩ ∧
      ¬ SendsAgree (fun _ => none) ⟨0, 0⟩ 1 8 c := by
  obtain ⟨tr, c, hrun, -, htest⟩ := exists_run_of_exec (program fun _ => none) (fun _ _ => true)
    (initial 1) fillAndDisconnect
    (fun c => c.owner = none ∧ c.threads ⟨0, 0⟩ = .running .idle ∧
      c.shared.inner = ⟨⟨[7], 1⟩, 0, 1, false, 0⟩) (by decide)
  obtain ⟨hfree, hidle, hinner⟩ := of_decide_eq_true htest
  have honce : Returns (fun _ => none) ⟨0, 0⟩ 1 (.trySendOnce 8) c
      (.trySend (.error (.timedOut 8))) ⟨[7], 1⟩ := by
    rw [returns_iff rfl hfree, hinner]
    rfl
  have huntil : Returns (fun _ => none) ⟨0, 0⟩ 1 (.trySendUntil 8) c
      (.trySend (.error (.noReceivers 8))) ⟨[7], 1⟩ := by
    rw [returns_iff rfl hfree, hinner]
    rfl
  refine ⟨tr, c, hrun, hfree, hidle, honce, huntil, fun hagree => ?_⟩
  have heq := ((hagree.once _ _).mp honce).trans ((hagree.until_expired _ _).mp huntil).symm
  cases heq

end ShmemUtils.Channel
