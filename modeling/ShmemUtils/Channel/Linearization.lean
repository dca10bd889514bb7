import ShmemUtils.Channel.Truthful
import ShmemUtils.Library.Linearizable

/-!
# The channel as a queue that is used by one call at a time

A call takes effect in the step in which it decides on its result. The sequential object behind the
channel is the queue alone: what an operation does to it, and returns, depends on the queue and on
the reason for which the call ends (`AtomicCall.apply`). The decisions of a run, in their order, are
a legal history of this object until the queue is dropped, and every reason is true of the state in
which its decision is made. Deadlines are taken as converted: the results include the panics of the
`expect`s on the queue, and not those of a conversion.
-/

namespace ShmemUtils.Channel

open ShmemUtils.Library ShmemUtils.Library.Monitor

/-! ## The sequential object -/

/-- Why a call ends. -/
inductive Cause where
  -- it acts on the queue
  | acts
  -- nobody is left on the other side, or the channel is being dropped
  | gone
  -- it is out of time
  | late
deriving DecidableEq, Repr

variable {α : Type} {grow : ℕ → Option ℕ} {t : Tid} {l l' : Pc α} {s s' : Shared α}
  {capacity : ℕ} {c c' : State α} {i : Event α} {tr : Trace α} {k : Call} {op : Op α} {r : Ret α}
  {pc pc' : OpPc α}

/-- What a send does to the queue, and returns. -/
def Op.push (grow : ℕ → Option ℕ) (op : Op α) (item : α) (q : VecDeque α) : VecDeque α × Ret α :=
  match q.pushBack grow item with
  | some q => (q, op.success)
  | none => (q, .panicked)

/-- What an operation does to the queue, and returns, when it is alone with it. -/
def Op.act (grow : ℕ → Option ℕ) : Op α → VecDeque α → VecDeque α × Ret α
  | .receive, q =>
    match q.popFront with
    | some (item, q) => (q, .receive (some item))
    | none => (q, .receive none)
  | .tryReceiveUntil, q =>
    match q.popFront with
    | some (item, q) => (q, .tryReceive (.ok item))
    | none => (q, .panicked)
  | .tryReceiveOnce, q =>
    match q.popFront with
    | some (item, q) => (q, .tryReceive (.ok item))
    | none => (q, .tryReceive (.error .timedOut))
  | .waitForMessageUntil, q => (q, .waitForMessage (.ok ()))
  | .trySend item, q => (Op.trySend item).push grow item q
  | .trySendUntil item, q => (Op.trySendUntil item).push grow item q
  | .trySendOnce item, q =>
    if q.remainingCapacity = 0 then (q, .trySend (.error (.timedOut item)))
    else (Op.trySendOnce item).push grow item q

/-- A call, and the reason for which it ends. -/
structure AtomicCall (α : Type) where
  op : Op α
  cause : Cause
deriving DecidableEq, Repr

def AtomicCall.apply (grow : ℕ → Option ℕ) : AtomicCall α → VecDeque α → VecDeque α × Ret α
  | ⟨op, .acts⟩, q => op.act grow q
  | ⟨op, .gone⟩, q => (q, op.dropped)
  -- only the operations with a deadline are late
  | ⟨op, .late⟩, q => (q, op.expired.getD op.dropped)

/-! ## The decisions of a run -/

/-- Why a call that decides at this point ends. -/
def OpPc.cause (inner : Inner α) : OpPc α → Cause
  | .start => .gone
  | .lock => .late
  | .testDropping _ => if inner.dropping then .acts else .late
  | .readPeers => .gone
  | .readDropping => if inner.dropping then .gone else .acts
  | _ => .acts

/-- What the call that a thread is in has decided to return. -/
def decided : Thread (Pc α) Side → Option (Ret α)
  | .running (.op _ _ pc) => pc.result?
  | _ => none

/-- The decision that is made in a step, if one is. -/
def decision (grow : ℕ → Option ℕ) (c : State α) (i : Event α) :
    Option (Entry Call (AtomicCall α) (Ret α)) :=
  match c.threads i.mover with
  | .running (.op _ op pc) =>
    match pc.result?, (next (program grow) c i).bind fun c' => decided (c'.threads i.mover) with
    | none, some r => some ⟨c.shared.call i.mover, ⟨op, pc.cause c.shared.inner⟩, r⟩
    | _, _ => none
  | _ => none

/-- A send acts by pushing its item, for which `try_send_once` needs room. -/
theorem Op.act_of_item (op : Op α) {item : α} {inner : Inner α} (hitem : op.item? = some item)
    (hroom : ∀ item, op = .trySendOnce item → ¬ op.Unready inner) :
    op.act grow inner.queue = op.push grow item inner.queue := by
  cases op with
  | trySend x =>
    cases hitem
    rfl
  | trySendUntil x =>
    cases hitem
    rfl
  | trySendOnce x =>
    cases hitem
    have hcapacity : inner.queue.remainingCapacity ≠ 0 := by
      simpa [Op.Unready, Op.side, Side.queueReady] using hroom item rfl
    simp [Op.act, hcapacity]
  | _ => cases hitem

/-- An operation that decides does to the queue what it does when it is alone with it. -/
theorem apply_of_goes (hgoes : (op.action grow t pc).Goes s pc' s')
    (hknows : pc.Knows none op s.inner) (hpc : pc.result? = none) (hr : pc'.result? = some r) :
    AtomicCall.apply grow ⟨op, pc.cause s.inner⟩ s.inner.queue = (s'.inner.queue, r) := by
  -- an operation that goes on after its wait has decided only if it waits for a message
  have hresume : op.resume.result? = some r → op.act grow s.inner.queue = (s.inner.queue, r) := by
    intro hresult
    cases op <;> cases hresult
    rfl
  cases opMoves_of_goes hgoes with
  | dropped =>
    cases hr
    rfl
  | givesUp hexpired =>
    cases hr
    simp [AtomicCall.apply, OpPc.cause, hexpired]
  | ready => exact hresume hr
  | full hop hunready =>
    cases hr
    subst hop
    have hfull : s.inner.queue.remainingCapacity = 0 := by
      simpa [Op.Unready, Op.side, Side.queueReady] using hunready
    simp [AtomicCall.apply, OpPc.cause, Op.act, hfull]
  | disconnected => exact hresume hr
  | released hop hd =>
    simp only [AtomicCall.apply, OpPc.cause, hd, if_true]
    exact hresume hr
  | expires hop hexpired hd =>
    cases hr
    simp [AtomicCall.apply, OpPc.cause, hd, hexpired]
  | alone =>
    cases hr
    rfl
  | readDropped hd =>
    cases hr
    simp [AtomicCall.apply, OpPc.cause, hd]
  | nothing hop hd =>
    cases hr
    subst hop
    -- the queue was empty, and has been so since
    have hempty : s.inner.queue.items = [] := (unready_item_iff rfl).mp (hknows.1 rfl)
    simp [AtomicCall.apply, OpPc.cause, hd, Op.act, VecDeque.popFront, hempty]
  | push hitem hs =>
    cases hr
    obtain ⟨queue, hqueue, hinner⟩ := pushBack_inner hs
    rw [hinner]
    show op.act grow s.inner.queue = (queue, op.success)
    rw [op.act_of_item hitem hknows.1, Op.push, hqueue]
  | @pushFails item s hitem hnone =>
    cases hr
    have hqueue : s.inner.queue.pushBack grow item = none := Option.map_eq_none_iff.mp hnone
    show op.act grow s.inner.queue = (s.inner.queue, .panicked)
    rw [op.act_of_item hitem hknows.1, Op.push, hqueue]
  | pop hdelivery hs =>
    cases hr
    obtain ⟨queue, hqueue, hinner⟩ := popFront_inner hs
    rw [hinner]
    cases op <;> cases hdelivery <;>
      simp [AtomicCall.apply, OpPc.cause, Op.act, hqueue]
  | popNothing hop hnone =>
    cases hr
    subst hop
    have hqueue : s.inner.queue.popFront = none := Option.map_eq_none_iff.mp hnone
    simp [AtomicCall.apply, OpPc.cause, Op.act, hqueue]
  | popFails hop hnone =>
    cases hr
    subst hop
    have hqueue : s.inner.queue.popFront = none := Option.map_eq_none_iff.mp hnone
    simp [AtomicCall.apply, OpPc.cause, Op.act, hqueue]
  | notify => cases hpc
  | unlock => cases hpc
  | _ => cases hr

/-! ## What a run keeps -/

/-- Behind the first of the three reads of a wait. -/
def OpPc.readsOn : OpPc α → Bool
  | .testPeers _ => true
  | .testDropping _ => true
  | _ => false

theorem readsOn_resume : op.resume.readsOn = false := by
  cases op <;> rfl

/-- A wait reads on because it has found the queue not ready. -/
theorem unready_of_goes (hgoes : (op.action grow t pc).Goes s pc' s')
    (hpc : pc.readsOn = true → op.Unready s.inner) (hpc' : pc'.readsOn = true) :
    op.Unready s'.inner := by
  cases opMoves_of_goes hgoes with
  | unready _ hunready => exact hunready
  | lonely _ hunready => exact hunready
  | connected => exact hpc rfl
  | ready => cases readsOn_resume.symm.trans hpc'
  | disconnected => cases readsOn_resume.symm.trans hpc'
  | released => cases readsOn_resume.symm.trans hpc'
  | _ => cases hpc'

def readsOnOutline : Outline (Shared α) Tid (Pc α) where
  global _ := True
  running _ l s := ∀ h op pc, l = .op h op pc → pc.readsOn = true → op.Unready s.inner
  asleep _ l _ := ∃ h op late, l = .op h op (.testQueue late)

/-- The mover is not about to drop the queue. -/
def KeepsQueue (_ : Tid) (l : Pc α) (_ : Shared α) : Prop := ∀ d, l ≠ .drop d .dropQueue

theorem Moves.readsOn (hm : Moves grow t l s l' s') (hl : readsOnOutline.running t l s) :
    readsOnOutline.running t l' s' := by
  rintro h op pc rfl hpc
  cases hm with
  | asked ha =>
    cases ha.op_pc
    cases hpc
  | op hgoes => exact unready_of_goes hgoes (hl h op _ rfl) hpc
  | make hmake => cases hmake
  | drop hdrop => cases hdrop

theorem OpPc.holding_of_readsOn (h : pc.readsOn = true) : pc.holding = true := by
  cases pc with
  | testPeers => rfl
  | testDropping => rfl
  | _ => cases h

theorem readsOnOutline_valid : (readsOnOutline (α := α)).Valid (program grow) NeverTogether
    KeepsQueue where
  own _ hl _ := program_establishes (fun _ _ hm => ⟨trivial, hm.readsOn hl⟩)
    fun h op late _ => ⟨h, op, late, rfl⟩
  wake _ hasleep := by
    obtain ⟨h, op, late, rfl⟩ := hasleep
    intro h' op' pc heq hpc
    cases heq
    cases hpc
  frame {t u l l' k s s'} _ _ _ hkeeps hgoes hapart hl := by
    rintro h op pc rfl hpc
    have hunready := hl h op pc rfl hpc
    -- with the mutex in hand only a drop of the queue would change it
    rcases (moves_of_goes hgoes).queue with ⟨h', op', rfl, -⟩ | ⟨d, rfl, -⟩ | hq
    · exact absurd (Or.inl ⟨OpPc.holding_of_readsOn hpc, rfl⟩) hapart
    · exact absurd rfl (hkeeps d)
    · simpa only [Op.Unready, hq] using hunready
  frameAsleep _ _ _ _ _ hasleep := hasleep

/-- Everything that is known of the states of a run, until the queue is dropped. -/
structure Orderly (capacity : ℕ) (c : State α) : Prop where
  sound : Sound c
  ready : (readyOutline none capacity).Holds c
  recorded : historyOutline.Holds c
  lonely : lonelyOutline.Holds c
  unready : readsOnOutline.Holds c

/-- A step that does not drop the queue. -/
def OrderlyStep (grow : ℕ → Option ℕ) (capacity : ℕ) (c : State α) (i : Event α) (c' : State α) :
    Prop :=
  Orderly capacity c ∧ Step (program grow) c i c' ∧ Guarded KeepsQueue c i

/-- What is freed stays freed. -/
theorem Moves.keepsQueue (hm : Moves grow t l s l' s') (hfrees : s'.queueFrees = 0) :
    s.queueFrees = 0 ∧ KeepsQueue t l s := by
  rcases hm.frees with ⟨hsame, -⟩ | ⟨d, rfl | rfl⟩
  · refine ⟨hsame ▸ hfrees, ?_⟩
    rintro d rfl
    cases hm with
    | drop hdrop =>
      cases hdrop
      cases hfrees
  · cases hm with
    | drop hdrop =>
      cases hdrop
      cases hfrees
  · cases hm with
    | drop hdrop =>
      cases hdrop
      exact ⟨hfrees, fun d heq => by cases heq⟩

theorem keepsQueue_of_step (hstep : Step (program grow) c i c')
    (hfrees : c'.shared.queueFrees = 0) :
    c.shared.queueFrees = 0 ∧ Guarded KeepsQueue c i := by
  rcases hstep.moves with ⟨l, l', ht, -, hgoes⟩ | ⟨hs, hwait⟩
  · obtain ⟨hbefore, hkeeps⟩ := (moves_of_goes hgoes).keepsQueue hfrees
    refine ⟨hbefore, fun l₁ ht₁ => ?_⟩
    cases ht.symm.trans ht₁
    exact hkeeps
  · refine ⟨hs ▸ hfrees, ?_⟩
    rintro l ht d rfl
    obtain ⟨cv, next, late, heq⟩ := hwait _ ht
    exact drop_ne_wait (show drop i.mover d .dropQueue = .wait cv next late from heq)

theorem keepsQueue_of_run {c₀ : State α} (hrun : Run (Step (program grow)) c₀ tr c)
    (hfrees : c.shared.queueFrees = 0) : Throughout (Guarded KeepsQueue) tr := by
  induction hrun with
  | start => exact throughout_nil _
  | next _ hnext ih =>
    obtain ⟨hbefore, hkeeps⟩ := keepsQueue_of_step hnext hfrees
    exact throughout_cons.mpr ⟨hkeeps, ih hbefore⟩

/-- **A run is orderly** until the queue is dropped. -/
theorem orderly_of_run (hrun : Run (Step (program grow)) (initial capacity) tr c)
    (hkeeps : Throughout (Guarded KeepsQueue) tr) : Everywhere (Orderly capacity) tr c := by
  have hready := ready_of_run hrun (throughout_agrees_none tr)
  have hlonely := lonely_of_run hrun
  have hrecorded : Everywhere (fun c => Sound c ∧ historyOutline.Holds c) tr c :=
    (historyOutline_valid NeverTogether).run hrun (sound_initial capacity)
      (fun h hstep => h.step hstep) (fun h => h.apart) historyOutline_initial
      fun _ _ _ _ => trivial
  have hunready : Everywhere (fun c => Sound c ∧ readsOnOutline.Holds c) tr c :=
    readsOnOutline_valid.run hrun (sound_initial capacity) (fun h hstep => h.step hstep)
      (fun h => h.apart) ⟨trivial, fun _ _ _ _ heq => by cases heq⟩ hkeeps
  exact ⟨⟨hready.1.1, hready.1.2, hrecorded.1.2, hlonely.1.2, hunready.1.2⟩, fun x hx =>
    ⟨(hready.2 x hx).1, (hready.2 x hx).2, (hrecorded.2 x hx).2, (hlonely.2 x hx).2,
      (hunready.2 x hx).2⟩⟩

/-! ## What a step does to the calls -/

theorem decision_eq (hstep : Step (program grow) c i c') {h : ℕ}
    (ht : c.threads i.mover = .running (.op h op pc)) (hpc : pc.result? = none)
    (hr : decided (c'.threads i.mover) = some r) :
    decision grow c i = some ⟨c.shared.call i.mover, ⟨op, pc.cause c.shared.inner⟩, r⟩ := by
  simp [decision, ht, hpc, next_of_step hstep, hr]

theorem decision_eq_none (hstep : Step (program grow) c i c')
    (h : decided (c.threads i.mover) ≠ none ∨ decided (c'.threads i.mover) = none) :
    decision grow c i = none := by
  unfold decision
  split
  · next k op pc ht =>
    rw [ht] at h
    rw [next_of_step hstep]
    simp only [Option.bind_some]
    split
    · next hpc hr =>
      rcases h with hdecided | hnone
      · exact absurd hpc hdecided
      · cases hnone.symm.trans hr
    · rfl
  · rfl

/-- A step, as far as calls are concerned. -/
inductive CallMoves (grow : ℕ → Option ℕ) (c : State α) (i : Event α) (c' : State α) : Prop where
  | stays : decision grow c i = none →
      decided (c'.threads i.mover) = decided (c.threads i.mover) →
      c'.shared.call i.mover = c.shared.call i.mover →
      c'.shared.history.results = c.shared.history.results → CallMoves grow c i c'
  | begins : decision grow c i = none → decided (c.threads i.mover) = none →
      decided (c'.threads i.mover) = none →
      c'.shared.history.results = c.shared.history.results → CallMoves grow c i c'
  | decides {h : ℕ} {op : Op α} {pc pc' : OpPc α} {r : Ret α} :
      c.threads i.mover = .running (.op h op pc) → c'.threads i.mover = .running (.op h op pc') →
      (op.action grow i.mover pc).Goes c.shared pc' c'.shared →
      pc.result? = none → pc'.result? = some r →
      decision grow c i = some ⟨c.shared.call i.mover, ⟨op, pc.cause c.shared.inner⟩, r⟩ →
      c'.shared.call i.mover = c.shared.call i.mover →
      c'.shared.history.results = c.shared.history.results → CallMoves grow c i c'
  | returns {h : ℕ} {op : Op α} {r : Ret α} : decision grow c i = none →
      c.threads i.mover = .running (.op h op (.ret r)) → c'.threads i.mover = .running .idle →
      c'.shared.call i.mover = c.shared.call i.mover →
      c'.shared.history.results =
        c.shared.history.results ++ [(c.shared.call i.mover, op, r)] → CallMoves grow c i c'

/-- Before it returns, an operation leaves its number and the results alone. -/
theorem call_of_goes (hgoes : (op.action grow t pc).Goes s pc' s') :
    s'.call t = s.call t ∧ s'.history.results = s.history.results := by
  rcases op_transfer hgoes with rfl | ⟨-, ⟨item, -, hs⟩ | ⟨-, item, hs⟩⟩
  · exact ⟨rfl, rfl⟩
  · simp [Shared.call, (pushBack_history hs).1]
  · simp [Shared.call, (popFront_history hs).1]

theorem callMoves_of_op (hstep : Step (program grow) c i c') {h : ℕ}
    (ht : c.threads i.mover = .running (.op h op pc))
    (ht' : c'.threads i.mover = .running (.op h op pc'))
    (hgoes : (op.action grow i.mover pc).Goes c.shared pc' c'.shared) : CallMoves grow c i c' := by
  obtain ⟨hcall, hresults⟩ := call_of_goes hgoes
  cases hpc : pc.result? with
  | some r =>
    -- decided before
    refine .stays (decision_eq_none hstep (Or.inl ?_)) ?_ hcall hresults
    · simp [decided, ht, hpc]
    · simp [decided, ht, ht', hpc, (op_result hgoes hpc).2]
  | none =>
    cases hpc' : pc'.result? with
    | none =>
      have hnone : decided (c'.threads i.mover) = none := by simp [decided, ht', hpc']
      refine .stays (decision_eq_none hstep (Or.inr hnone)) ?_ hcall hresults
      simp [decided, ht, ht', hpc, hpc']
    | some r =>
      have hdecided : decided (c'.threads i.mover) = some r := by simp [decided, ht', hpc']
      exact .decides ht ht' hgoes hpc hpc' (decision_eq hstep ht hpc hdecided) hcall hresults

/-- A thread that is not in an operation before the step or after it. -/
theorem callMoves_of_none (hstep : Step (program grow) c i c')
    (hbefore : decided (c.threads i.mover) = none) (hafter : decided (c'.threads i.mover) = none)
    (hresults : c'.shared.history.results = c.shared.history.results) : CallMoves grow c i c' :=
  .begins (decision_eq_none hstep (Or.inr hafter)) hbefore hafter hresults

/-- What is not an operation may begin one, and adds no result. -/
theorem Moves.outside (hm : Moves grow t l s l' s') (hl : ∀ h op pc, l ≠ .op h op pc) :
    decided (.running l') = none ∧ s'.history.results = s.history.results := by
  cases hm with
  | asked ha => cases ha <;> exact ⟨rfl, rfl⟩
  | op => exact absurd rfl (hl _ _ _)
  | ret => exact absurd rfl (hl _ _ _)
  | make hmake => cases hmake <;> exact ⟨rfl, by simp⟩
  | drop hdrop => cases hdrop <;> exact ⟨rfl, by simp⟩

/-- A sleeper wakes up to evaluate its predicate, and has decided nothing. -/
theorem undecided_of_wakes (hsound : Sound c) (hstep : Step (program grow) c i c')
    (hnot : ∀ l, c.threads i.mover ≠ .running l) : decided (c'.threads i.mover) = none := by
  cases ht' : c'.threads i.mover with
  | running l' =>
    have hl' : ∃ k op late, l' = .op k op (.testQueue late) := by
      have hat := hsound.teardown.at_ i.mover
      rcases hstep.arrives ht' with ht | ⟨l, ht, -⟩ | ⟨cv, late, ht⟩ | ht
      · exact absurd ht (hnot l')
      · exact absurd ht (hnot l)
      · rw [ht] at hat
        exact hat.1
      · rw [ht] at hat
        exact hat
    obtain ⟨k, op, late, rfl⟩ := hl'
    rfl
  | blocked => rfl
  | woken => rfl

/-- **Every step is one of the four.** -/
theorem callMoves_of_step (hsound : Sound c) (hstep : Step (program grow) c i c') :
    CallMoves grow c i c' := by
  by_cases hop : ∃ h op pc, c.threads i.mover = .running (.op h op pc)
  · obtain ⟨h, op, pc, ht⟩ := hop
    rcases op_of_step hstep ht with ⟨pc', ht', hgoes⟩ | ⟨r, rfl, ht', hs⟩ |
      ⟨rfl, hs, cv, next, late, ht'⟩
    · exact callMoves_of_op hstep ht ht' hgoes
    · refine .returns (decision_eq_none hstep (Or.inl ?_)) ht ht' ?_ ?_
      · simp [decided, ht, OpPc.result?]
      · rw [hs]
        rfl
      · rw [hs]
        rfl
    · exact callMoves_of_none hstep (by simp [decided, ht, OpPc.result?]) (by simp [decided, ht'])
        (by rw [hs])
  · have hbefore : decided (c.threads i.mover) = none := by
      unfold decided
      split
      · next h op pc ht => exact absurd ⟨h, op, pc, ht⟩ hop
      · rfl
    by_cases hrunning : ∃ l, c.threads i.mover = .running l
    · obtain ⟨l, ht⟩ := hrunning
      have hl : ∀ h op pc, l ≠ .op h op pc := by
        rintro h op pc rfl
        exact hop ⟨h, op, pc, ht⟩
      rcases hstep.goes ht with ⟨l', ht', hgoes⟩ | ⟨cv, next, late, hwait, -⟩
      · obtain ⟨hafter, hresults⟩ := (moves_of_goes hgoes).outside hl
        exact callMoves_of_none hstep hbefore (by rw [ht']; exact hafter) hresults
      · obtain ⟨k, op, pc, heq⟩ := op_of_wait hwait
        exact absurd heq (hl k op pc)
    · have hnot : ∀ l, c.threads i.mover ≠ .running l := fun l ht => hrunning ⟨l, ht⟩
      exact callMoves_of_none hstep hbefore (undecided_of_wakes hsound hstep hnot)
        (by rw [hstep.still hnot])

/-! ## The linearization points -/

/-- A step without a decision leaves the queue alone. -/
theorem queue_of_silent (hstep : Step (program grow) c i c') (hkeeps : Guarded KeepsQueue c i)
    (hnone : decision grow c i = none) : c'.shared.inner.queue = c.shared.inner.queue := by
  rcases hstep.moves with ⟨l, l', ht, ht', hgoes⟩ | ⟨hs, -⟩
  · have hm := moves_of_goes hgoes
    rcases hm.queue with ⟨h, op, rfl, -⟩ | ⟨d, rfl, -⟩ | hsame
    · cases hm with
      | op hgoes' =>
        rcases op_effect hgoes' with ⟨hs, -⟩ | ⟨hpc, hpc', -⟩
        · rw [hs]
        · obtain ⟨r, hr⟩ := Option.ne_none_iff_exists'.mp hpc'
          cases hnone.symm.trans (decision_eq hstep ht hpc (by simpa [decided, ht'] using hr))
    · exact absurd rfl (hkeeps _ ht d)
    · exact hsame
  · rw [hs]

/-- The decisions of the steps that keep the queue are linearization points. -/
def points (grow : ℕ → Option ℕ) (capacity : ℕ) :
    Points (OrderlyStep (α := α) grow capacity) (AtomicCall.apply (α := α) grow) Call where
  abs c := c.shared.inner.queue
  commit := decision grow
  silent {c i c'} hstep hnone := by
    obtain ⟨-, hstep, hkeeps⟩ := hstep
    exact queue_of_silent hstep hkeeps hnone
  effect {c i c' e} hstep hsome := by
    obtain ⟨horderly, hstep, -⟩ := hstep
    cases callMoves_of_step horderly.sound hstep with
    | decides ht ht' hgoes hpc hpc' hdecision =>
      cases hdecision.symm.trans hsome
      exact apply_of_goes hgoes ((horderly.ready.running ht).2 _ _ _ rfl) hpc hpc'
    | stays hnone => cases hnone.symm.trans hsome
    | begins hnone => cases hnone.symm.trans hsome
    | returns hnone => cases hnone.symm.trans hsome

/-- What a call has decided to return, or has returned. -/
def outcome (k : Call) (c : State α) : Option (Ret α) :=
  (if c.shared.call k.thread = k then decided (c.threads k.thread) else none).or
    ((c.shared.history.results.lookup k).map Prod.snd)

/-- A call that is still in its operation has returned nothing. -/
theorem lookup_of_running (h : Orderly capacity c) {n : ℕ}
    (ht : c.threads t = .running (.op n op pc)) :
    c.shared.history.results.lookup (c.shared.call t) = none := by
  have hcurrent := h.recorded.running ht n op pc rfl
  exact List.lookup_eq_none_iff.mpr fun x hx => bne_iff_ne.mpr (hcurrent.unreturned x hx).symm

/-- The result of another call. -/
theorem lookup_concat_of_ne {k' : Call} (results : List (Call × Op α × Ret α)) (x : Op α × Ret α)
    (hne : k ≠ k') : (results ++ [(k', x)]).lookup k = results.lookup k := by
  rw [List.lookup_append, List.lookup_cons, beq_eq_false_iff_ne.mpr hne]
  simp

/-- The calls of other threads do not see the step. -/
theorem outcome_others (hsound : Sound c) (hstep : Step (program grow) c i c')
    (hk : k.thread ≠ i.mover) : outcome k c' = outcome k c := by
  have hresults : c'.shared.history.results.lookup k = c.shared.history.results.lookup k := by
    cases callMoves_of_step hsound hstep with
    | returns _ _ _ _ hresults =>
      have hne : k ≠ c.shared.call i.mover := fun heq => hk (congrArg Call.thread heq)
      rw [hresults, lookup_concat_of_ne _ _ hne]
    | stays _ _ _ hresults => rw [hresults]
    | begins _ _ _ hresults => rw [hresults]
    | decides _ _ _ _ _ _ _ hresults => rw [hresults]
  unfold outcome
  rw [call_others hstep hk, hstep.others hk, hresults]

/-- **A call's result is settled by its decision**, and by nothing else. -/
theorem settles (grow : ℕ → Option ℕ) (capacity : ℕ) (k : Call) :
    (points (α := α) grow capacity).Settles k (outcome k) where
  keeps {c i c'} hstep hother := by
    obtain ⟨horderly, hstep, -⟩ := hstep
    by_cases hk : k.thread = i.mover
    swap
    · exact outcome_others horderly.sound hstep hk
    cases callMoves_of_step horderly.sound hstep with
    | stays _ hdecided hcall hresults => simp only [outcome, hk, hdecided, hcall, hresults]
    | begins _ hbefore hafter hresults => simp [outcome, hk, hbefore, hafter, hresults]
    | decides _ _ _ _ _ hdecision hcall hresults =>
      have hne : c.shared.call i.mover ≠ k := hother _ hdecision
      simp [outcome, hk, hcall, hne, hresults]
    | returns _ ht ht' hcall hresults =>
      by_cases hthis : c.shared.call i.mover = k
      · -- the result moves from the thread to the history
        have hlookup := lookup_of_running horderly ht
        rw [hthis] at hlookup
        simp [outcome, hk, hcall, hthis, ht, ht', decided, OpPc.result?, hresults,
          List.lookup_append, hlookup]
      · simp [outcome, hk, hcall, hthis, hresults, lookup_concat_of_ne _ _ (Ne.symm hthis)]
  settles {c i c' e} hstep hsome hcaller := by
    obtain ⟨horderly, hstep, -⟩ := hstep
    cases callMoves_of_step horderly.sound hstep with
    | decides ht ht' _ hpc hpc' hdecision hcall hresults =>
      cases hdecision.symm.trans hsome
      subst hcaller
      have hlookup := lookup_of_running horderly ht
      have hthread : (c.shared.call i.mover).thread = i.mover := rfl
      constructor
      · simp [outcome, hthread, ht, decided, hpc, hlookup]
      · simp [outcome, hthread, ht', decided, hpc', hcall]
    | stays hnone => cases hnone.symm.trans hsome
    | begins hnone => cases hnone.symm.trans hsome
    | returns hnone => cases hnone.symm.trans hsome

/-! ## The reasons -/

/-- Nobody is left on the other side. `receive` never says so by looking at the counter, and
`try_receive_once` only when it has found the queue empty. -/
def Op.Deserted (op : Op α) (inner : Inner α) : Prop :=
  op ≠ .receive ∧ (op = .tryReceiveOnce → op.Unready inner) ∧ op.side.peers inner = 0

/-- The reason for which an operation ends, read off the point at which it decides. -/
def Cause.Explains (op : Op α) (r : Ret α) (inner : Inner α) (pc : OpPc α) : Cause → Prop
  | .acts => pc.holding = true ∧
      (op = .waitForMessageUntil → ¬ op.Unready inner ∨ inner.dropping = true)
  | .gone => op.Deserted inner ∨ inner.dropping = true
  | .late => op.expired = some r ∧ (pc = .lock ∨ pc.readsOn = true)

theorem explains_of_goes (hgoes : (op.action grow t pc).Goes s pc' s')
    (hknows : pc.Knows none op s.inner)
    (hlonely : ∀ late, op = .waitForMessageUntil → pc ≠ .testPeers late)
    (hpc : pc.result? = none) (hr : pc'.result? = some r) :
    (pc.cause s.inner).Explains op r s.inner pc := by
  -- of those that go on after a wait, one has decided
  have hresume : op.resume.result? = some r → op = .waitForMessageUntil := by
    intro hresult
    cases op <;> first | rfl | cases hresult
  cases opMoves_of_goes hgoes with
  | dropped hd => exact Or.inr hd
  | givesUp hexpired =>
    cases hr
    exact ⟨hexpired, Or.inl rfl⟩
  | ready _ hready => exact ⟨rfl, fun _ => Or.inl hready⟩
  | full hop => exact ⟨rfl, fun heq => by cases hop.symm.trans heq⟩
  | disconnected => exact absurd rfl (hlonely _ (hresume hr))
  | released _ hd =>
    simp only [OpPc.cause, hd, if_true]
    exact ⟨rfl, fun _ => Or.inr hd⟩
  | expires _ hexpired hd =>
    cases hr
    simp only [OpPc.cause, hd]
    exact ⟨hexpired, Or.inr rfl⟩
  | alone hop hzero => exact Or.inl ⟨hop, hknows.1, hzero⟩
  | readDropped hd =>
    simp only [OpPc.cause, hd, if_true]
    exact Or.inr hd
  | nothing hop hd =>
    simp only [OpPc.cause, hd]
    exact ⟨rfl, fun heq => by cases hop.symm.trans heq⟩
  | push hitem => exact ⟨rfl, fun heq => by subst heq; cases hitem⟩
  | pushFails hitem => exact ⟨rfl, fun heq => by subst heq; cases hitem⟩
  | pop hdelivery => exact ⟨rfl, fun heq => by subst heq; cases hdelivery⟩
  | popNothing hop => exact ⟨rfl, fun heq => by cases hop.symm.trans heq⟩
  | popFails hop => exact ⟨rfl, fun heq => by cases hop.symm.trans heq⟩
  | notify => cases hpc
  | unlock => cases hpc
  | _ => cases hr

/-- The reason of a decision is true of the state in which it is made: a call acts with the mutex in
hand; it gives up on the others when they have left, or `dropping` is set; and it is late when
somebody else holds the mutex, or when it holds the mutex itself over a queue that is not ready. -/
def Cause.Justified (c : State α) (t : Tid) (op : Op α) (r : Ret α) : Cause → Prop
  | .acts => c.owner = some t ∧
      (op = .waitForMessageUntil → ¬ op.Unready c.shared.inner ∨ c.shared.inner.dropping = true)
  | .gone => op.Deserted c.shared.inner ∨ c.shared.inner.dropping = true
  | .late => op.expired = some r ∧ (c.owner ≠ none ∧ c.owner ≠ some t ∨
      c.owner = some t ∧ op.Unready c.shared.inner)

/-- The lock attempt of an operation with a deadline. -/
theorem action_lock (grow : ℕ → Option ℕ) (t : Tid) (hexpired : op.expired = some r) :
    ∃ got, got ≠ .ret r ∧ (op.action grow t .lock = .tryLock got (.ret r) ∨
      op.action grow t .lock = .timedLock got (.ret r)) := by
  cases op with
  | tryReceiveOnce =>
    cases hexpired
    exact ⟨.transfer, by simp, Or.inl rfl⟩
  | trySendOnce =>
    cases hexpired
    exact ⟨.testQueue false, by simp, Or.inl rfl⟩
  | receive => cases hexpired
  | trySend => cases hexpired
  | _ =>
    cases hexpired
    exact ⟨.testQueue false, by simp, Or.inr rfl⟩

theorem ret_of_lock (hgoes : (op.action grow t .lock).Goes s pc' s')
    (hr : pc'.result? = some r) : pc' = .ret r := by
  cases opMoves_of_goes hgoes with
  | givesUp =>
    cases hr
    rfl
  | _ => cases hr

theorem held_of_late (hstep : Step (program grow) c i c') {n : ℕ}
    (ht : c.threads i.mover = .running (.op n op .lock))
    (ht' : c'.threads i.mover = .running (.op n op (.ret r))) (hexpired : op.expired = some r) :
    c.owner ≠ none := by
  obtain ⟨got, hgot, hlock⟩ := action_lock grow i.mover hexpired
  have hprogram : program grow i.mover (.op n op .lock) =
      (op.action grow i.mover .lock).map (.op n op) := program_op (by simp)
  have hbusy : program grow i.mover (.op n op .lock) = .tryLock (.op n op got) (.op n op (.ret r)) ∨
      program grow i.mover (.op n op .lock) = .timedLock (.op n op got) (.op n op (.ret r)) := by
    rw [hprogram]
    rcases hlock with hlock | hlock
    · exact Or.inl (by rw [hlock]; rfl)
    · exact Or.inr (by rw [hlock]; rfl)
  exact hstep.held_of_busy ht hbusy ht' (by simpa using hgot)

theorem justified_of_step (h : Orderly capacity c) (hstep : Step (program grow) c i c')
    {e : Entry Call (AtomicCall α) (Ret α)} (hsome : decision grow c i = some e) :
    e.caller = c.shared.call i.mover ∧ e.op.cause.Justified c i.mover e.op.op e.result := by
  cases callMoves_of_step h.sound hstep with
  | @decides n op pc pc' r ht ht' hgoes hpc hpc' hdecision =>
    cases hdecision.symm.trans hsome
    refine ⟨rfl, ?_⟩
    have howner := (h.sound.exclusive.of_running ht).1
    have hknows := (h.ready.running ht).2 n op pc rfl
    have hexplains := explains_of_goes hgoes hknows (fun late hop heq => by
      subst hop heq
      exact h.lonely.running ht n late rfl) hpc hpc'
    show (pc.cause c.shared.inner).Justified c i.mover op r
    cases hcause : pc.cause c.shared.inner with
    | acts =>
      rw [hcause] at hexplains
      exact ⟨howner.mpr hexplains.1, hexplains.2⟩
    | gone =>
      rw [hcause] at hexplains
      exact hexplains
    | late =>
      rw [hcause] at hexplains
      obtain ⟨hexpired, rfl | hreads⟩ := hexplains
      · refine ⟨hexpired, Or.inl ⟨?_, fun heq => ?_⟩⟩
        · cases ret_of_lock hgoes hpc'
          exact held_of_late hstep ht ht' hexpired
        · cases howner.mp heq
      · exact ⟨hexpired, Or.inr ⟨howner.mpr (OpPc.holding_of_readsOn hreads),
          h.unready.running ht n op pc rfl hreads⟩⟩
  | stays hnone => cases hnone.symm.trans hsome
  | begins hnone => cases hnone.symm.trans hsome
  | returns hnone => cases hnone.symm.trans hsome

/-! ## Runs -/

/-- No step of the trace is a decision of the call. -/
def Undecided (grow : ℕ → Option ℕ) (tr : Trace α) (k : Call) : Prop :=
  ∀ x ∈ tr, ∀ e, decision grow x.1 x.2 = some e → e.caller ≠ k

/-- Exactly one step of the trace is a decision of the call, which is then inside `op`, to return
`r`. -/
def DecidesOnce (grow : ℕ → Option ℕ) (tr : Trace α) (k : Call) (op : Op α) (r : Ret α) : Prop :=
  ∃ after c i c' before cause, tr = after ++ (c, i) :: before ∧ Step (program grow) c i c' ∧
    i.mover = k.thread ∧ Chooses c i c' op r ∧ decision grow c i = some ⟨k, ⟨op, cause⟩, r⟩ ∧
    Undecided grow after k ∧ Undecided grow before k

/-- The decisions of a trace, the first one first. -/
def decisions (grow : ℕ → Option ℕ) (tr : Trace α) : List (Entry Call (AtomicCall α) (Ret α)) :=
  (tr.filterMap fun x => decision grow x.1 x.2).reverse

/-- An orderly run. -/
theorem run_of_orderly {c₀ : State α} (hrun : Run (Step (program grow)) c₀ tr c)
    (horderly : Everywhere (Orderly capacity) tr c) (hkeeps : Throughout (Guarded KeepsQueue) tr) :
    Run (OrderlyStep grow capacity) c₀ tr c := by
  induction hrun with
  | start => exact .start
  | next _ hnext ih =>
    obtain ⟨-, hbefore⟩ := everywhere_cons.mp horderly
    obtain ⟨hi, htail⟩ := throughout_cons.mp hkeeps
    exact (ih hbefore htail).next ⟨hbefore.1, hnext, hi⟩

/-- A call that has not begun has no outcome. -/
theorem outcome_eq_none (h : Orderly capacity c)
    (hk : c.shared.history.calls k.thread < k.number) : outcome k c = none := by
  have hcall : c.shared.call k.thread ≠ k := by
    intro heq
    exact absurd (congrArg Call.number heq) (Nat.ne_of_lt hk)
  have hlookup : c.shared.history.results.lookup k = none := by
    refine List.lookup_eq_none_iff.mpr fun x hx => bne_iff_ne.mpr ?_
    rintro rfl
    exact absurd (h.recorded.global.results x hx) (Nat.not_le.mpr hk)
  simp [outcome, hcall, hlookup]

theorem outcome_initial (k : Call) (capacity : ℕ) :
    outcome k (initial (α := α) capacity) = none := by
  unfold outcome
  split
  · rfl
  · rfl

/-- In an orderly run the reasons are true. -/
theorem justified_of_run {c₀ : State α} (hrun : Run (OrderlyStep grow capacity) c₀ tr c) :
    Throughout (fun c i => ∀ e, decision grow c i = some e →
      e.caller = c.shared.call i.mover ∧ e.op.cause.Justified c i.mover e.op.op e.result) tr := by
  induction hrun with
  | start => exact throughout_nil _
  | next _ hnext ih =>
    exact throughout_cons.mpr ⟨fun e hsome => justified_of_step hnext.1 hnext.2.1 hsome, ih⟩

/-- A call that has returned has decided once, and that is its outcome. -/
theorem decidesOnce_of_returned (hrun : Run (Step (program grow)) (initial capacity) tr c)
    (horderly : Run (OrderlyStep grow capacity) (initial capacity) tr c)
    (hreturned : (k, op, r) ∈ c.shared.history.results) :
    outcome k c = some r ∧ DecidesOnce grow tr k op r := by
  -- the call has chosen its result in a step that is its decision
  obtain ⟨c₁, i₁, c₂, hmem, hstep, hmover, hcall, n, pc, pc', ht, ht', hpc, hr⟩ :=
    (chosen_of_run hrun).returned hreturned
  have hdecision := decision_eq hstep ht hpc (by simpa [decided, ht'] using hr)
  rw [hmover, hcall] at hdecision
  -- and there is no other
  obtain ⟨hnone, honce⟩ := (settles grow capacity k).once horderly (outcome_initial k capacity)
  cases houtcome : outcome k c with
  | none => exact absurd rfl (hnone houtcome _ hmem _ hdecision)
  | some r' =>
    obtain ⟨after, c₃, i₃, c₄, before, op', rfl, -, hcommit, hafter, hbefore⟩ := honce r' houtcome
    rcases List.mem_append.mp hmem with hin | hin
    · exact absurd rfl (hafter _ hin _ hdecision)
    rcases List.mem_cons.mp hin with heq | hin
    · cases heq
      cases hdecision.symm.trans hcommit
      exact ⟨rfl, after, c₁, i₁, c₂, before, _, rfl, hstep, hmover,
        ⟨n, pc, pc', ht, ht', hpc, hr⟩, hdecision, hafter, hbefore⟩
    · exact absurd rfl (hbefore _ hin _ hdecision)

/-- The decisions of a run that is now in `c` explain it: in their order they are a legal history of
the queue alone, with everything that they return; a call that has returned has made one of them,
while it was in its operation, on what it returned; and a call that has not begun has made none. -/
structure Linearized (grow : ℕ → Option ℕ) (capacity : ℕ) (tr : Trace α) (c : State α) : Prop where
  legal : Legal (AtomicCall.apply grow) ⟨[], capacity⟩ (decisions grow tr) c.shared.inner.queue
  returned : ∀ k op r, (k, op, r) ∈ c.shared.history.results → DecidesOnce grow tr k op r
  notBegun : ∀ k, c.shared.history.calls k.thread < k.number → Undecided grow tr k

theorem linearized_of_run (hrun : Run (Step (program grow)) (initial capacity) tr c)
    (hkeeps : Throughout (Guarded KeepsQueue) tr) : Linearized grow capacity tr c := by
  have horderly := orderly_of_run hrun hkeeps
  have hrun' := run_of_orderly hrun horderly hkeeps
  refine ⟨(points grow capacity).legal hrun', fun k op r hreturned => ?_, fun k hk => ?_⟩
  · exact (decidesOnce_of_returned hrun hrun' hreturned).2
  · exact ((settles grow capacity k).once hrun' (outcome_initial k capacity)).1
      (outcome_eq_none horderly.1 hk)

end ShmemUtils.Channel
