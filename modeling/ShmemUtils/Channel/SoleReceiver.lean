import ShmemUtils.Channel.Linearization

/-!
# Waiting for a message, and then receiving it

`wait_for_message` takes nothing: between its return and the next call of its thread other receivers
may empty the queue. A thread that is the only one to receive can rely on it: until its next receive
the queue holds a message, and that receive takes one, unless it has a deadline and finds the mutex
held, or is `try_receive_until` and reads that no sender is left.
-/

namespace ShmemUtils.Channel

open ShmemUtils.Library ShmemUtils.Library.Monitor

variable {α : Type} {grow : ℕ → Option ℕ} {t : Tid} {capacity : ℕ} {c c' : State α} {i : Event α}
  {tr : Trace α} {op : Op α} {r : Ret α} {cause : Cause} {q q' : VecDeque α}

/-- No other thread takes a step of a receive. -/
def SoleReceiver (t u : Tid) : Pc α → Shared α → Prop
  | .op _ op _, _ => u ≠ t → op.receives = false
  | _, _ => True

instance (t u : Tid) (l : Pc α) (s : Shared α) : Decidable (SoleReceiver t u l s) :=
  match l with
  | .op _ op _ => inferInstanceAs (Decidable (u ≠ t → op.receives = false))
  | .idle => .isTrue trivial
  | .make _ _ => .isTrue trivial
  | .drop _ _ => .isTrue trivial

/-- What a receive may return when a message is queued. -/
def Fruitful (op : Op α) (r : Ret α) : Prop :=
  (∃ item, op.delivery item = some r) ∨ op.expired = some r ∨
    op = .tryReceiveUntil ∧ r = op.dropped

/-- The call has found that a message is queued. -/
def Found (t : Tid) (n : ℕ) (c : State α) : Prop :=
  outcome ⟨t, n⟩ c = some (.waitForMessage (.ok ()))

/-! ## The sequential object -/

/-- Those that do not receive leave a message where one is. -/
theorem apply_keeps (hop : op.receives = false) (hq : q.items ≠ [])
    (happly : AtomicCall.apply grow ⟨op, cause⟩ q = (q', r)) : q'.items ≠ [] := by
  have hpush : ∀ {item}, op.push grow item q = (q', r) → q'.items ≠ [] := by
    intro item heq
    unfold Op.push VecDeque.pushBack at heq
    split at heq
    · next hsome =>
      cases heq
      split at hsome
      · cases hsome
        simp
      · obtain ⟨n, -, rfl⟩ := Option.map_eq_some_iff.mp hsome
        simp
    · cases heq
      exact hq
  cases cause with
  | acts =>
    cases op with
    | trySend item => exact hpush happly
    | trySendUntil item => exact hpush happly
    | trySendOnce item =>
      simp only [AtomicCall.apply, Op.act] at happly
      split at happly
      · cases happly
        exact hq
      · exact hpush happly
    | waitForMessageUntil =>
      cases happly
      exact hq
    | _ => cases hop
  | gone =>
    cases happly
    exact hq
  | late =>
    cases happly
    exact hq

/-- A receive that acts on a message takes it. -/
theorem apply_takes (hop : op.receives = true) (hq : q.items ≠ [])
    (happly : AtomicCall.apply grow ⟨op, .acts⟩ q = (q', r)) :
    ∃ item, op.delivery item = some r := by
  cases hitems : q.items with
  | nil => exact absurd hitems hq
  | cons item items =>
    refine ⟨item, ?_⟩
    cases op with
    | receive =>
      simp only [AtomicCall.apply, Op.act, VecDeque.popFront, hitems, Prod.mk.injEq] at happly
      rw [← happly.2]
      rfl
    | tryReceiveUntil =>
      simp only [AtomicCall.apply, Op.act, VecDeque.popFront, hitems, Prod.mk.injEq] at happly
      rw [← happly.2]
      rfl
    | tryReceiveOnce =>
      simp only [AtomicCall.apply, Op.act, VecDeque.popFront, hitems, Prod.mk.injEq] at happly
      rw [← happly.2]
      rfl
    | _ => cases hop

/-- Only `wait_for_message` says that there is a message, and it takes nothing. -/
theorem apply_found
    (happly : AtomicCall.apply grow ⟨op, cause⟩ q = (q', .waitForMessage (.ok ()))) :
    op = .waitForMessageUntil ∧ cause = .acts ∧ q' = q := by
  have hpush : ∀ {op : Op α} {item}, op.success ≠ .waitForMessage (.ok ()) →
      op.push grow item q ≠ (q', .waitForMessage (.ok ())) := by
    intro op item hsuccess heq
    unfold Op.push at heq
    split at heq
    · exact hsuccess (Prod.mk.inj heq).2
    · cases heq
  cases cause with
  | acts =>
    cases op with
    | waitForMessageUntil =>
      cases happly
      exact ⟨rfl, rfl, rfl⟩
    | trySend item => exact absurd happly (hpush (by simp [Op.success]))
    | trySendUntil item => exact absurd happly (hpush (by simp [Op.success]))
    | trySendOnce item =>
      simp only [AtomicCall.apply, Op.act] at happly
      split at happly
      · cases happly
      · exact absurd happly (hpush (by simp [Op.success]))
    | _ =>
      simp only [AtomicCall.apply, Op.act] at happly
      split at happly
      · cases happly
      · cases happly
  | gone => cases op <;> cases happly
  | late => cases op <;> cases happly

/-! ## What a step keeps -/

/-- What a thread that has found a message can rely on, when it is the only one to receive. -/
structure Heeded (t : Tid) (c : State α) : Prop where
  -- the message is there until the thread decides again
  found : ∀ n, Found t n c → (∀ m, n < m → outcome ⟨t, m⟩ c = none) →
    c.shared.inner.queue.items ≠ []
  -- and its next call takes one, if it receives
  deciding : ∀ n h op pc r, c.threads t = .running (.op h op pc) → pc.result? = some r →
    c.shared.call t = ⟨t, n + 1⟩ → Found t n c → op.receives = true → Fruitful op r
  returned : ∀ n op r, Found t n c → (⟨t, n + 1⟩, op, r) ∈ c.shared.history.results →
    op.receives = true → Fruitful op r

theorem exists_of_decided {th : Thread (Pc α) Side} (h : decided th = some r) :
    ∃ n op pc, th = .running (.op n op pc) ∧ pc.result? = some r := by
  unfold decided at h
  split at h
  · exact ⟨_, _, _, rfl, h⟩
  · cases h

/-- Without a decision, what has been decided was so before. -/
theorem decided_of_silent (hsound : Sound c) (hstep : Step (program grow) c i c')
    (hnone : decision grow c i = none) {n : ℕ} {pc' : OpPc α}
    (ht' : c'.threads t = .running (.op n op pc')) (hr : pc'.result? = some r) :
    c'.shared.call t = c.shared.call t ∧
      ∃ pc, c.threads t = .running (.op n op pc) ∧ pc.result? = some r := by
  by_cases hmover : t = i.mover
  swap
  · rw [hstep.others hmover] at ht'
    exact ⟨call_others hstep hmover, pc', ht', hr⟩
  subst hmover
  cases callMoves_of_step hsound hstep with
  | stays _ hsame hcall _ =>
    have hdecided : decided (c.threads i.mover) = some r := by
      rw [← hsame, ht']
      exact hr
    obtain ⟨n₀, op₀, pc, ht, hpc⟩ := exists_of_decided hdecided
    rcases result_of_step hstep ht hpc with ⟨-, pc'', ht'', -⟩ | ⟨-, hidle⟩
    · cases ht''.symm.trans ht'
      exact ⟨hcall, pc, ht, hpc⟩
    · cases hidle.symm.trans ht'
  | begins _ _ hafter =>
    rw [ht'] at hafter
    cases hr.symm.trans hafter
  | decides _ _ _ _ _ hsome => cases hnone.symm.trans hsome
  | returns _ _ hidle => cases hidle.symm.trans ht'

/-- A result is that of a call that returns in the step, or was there before. -/
theorem returned_of_step (hsound : Sound c) (hstep : Step (program grow) c i c') {k : Call}
    (hx : (k, op, r) ∈ c'.shared.history.results) :
    (k, op, r) ∈ c.shared.history.results ∨
      ∃ n, c.threads i.mover = .running (.op n op (.ret r)) ∧ k = c.shared.call i.mover := by
  cases callMoves_of_step hsound hstep with
  | stays _ _ _ hsame =>
    rw [hsame] at hx
    exact Or.inl hx
  | begins _ _ _ hsame =>
    rw [hsame] at hx
    exact Or.inl hx
  | decides _ _ _ _ _ _ _ hsame =>
    rw [hsame] at hx
    exact Or.inl hx
  | @returns n op' r' _ ht _ _ hresults =>
    rw [hresults] at hx
    rcases List.mem_append.mp hx with hx | hx
    · exact Or.inl hx
    · cases List.mem_singleton.mp hx
      exact Or.inr ⟨n, ht, rfl⟩

/-- A step without a decision changes no outcome, and not the queue. -/
theorem Heeded.of_silent (h : Heeded t c) (hstep : OrderlyStep grow capacity c i c')
    (hnone : decision grow c i = none) : Heeded t c' := by
  have houtcome : ∀ n, outcome ⟨t, n⟩ c' = outcome ⟨t, n⟩ c := fun n =>
    (settles grow capacity ⟨t, n⟩).keeps hstep fun e hsome => by cases hnone.symm.trans hsome
  have hqueue : c'.shared.inner.queue = c.shared.inner.queue :=
    (points grow capacity).silent hstep hnone
  obtain ⟨horderly, hstep, -⟩ := hstep
  have hfound : ∀ {n}, Found t n c' → Found t n c := by
    intro n hn
    rwa [Found, houtcome] at hn
  constructor
  · intro n hn hlast
    rw [hqueue]
    exact h.found n (hfound hn) fun m hm => by rw [← houtcome, hlast m hm]
  · intro n k op pc r ht' hr hcall hn hop
    obtain ⟨hsame, pc₀, ht, hpc⟩ := decided_of_silent horderly.sound hstep hnone ht' hr
    exact h.deciding n k op pc₀ r ht hpc (hsame.symm.trans hcall) (hfound hn) hop
  · intro n op r hn hx hop
    rcases returned_of_step horderly.sound hstep hx with hx | ⟨k, ht, hcall⟩
    · exact h.returned n op r (hfound hn) hx hop
    · -- the call returns what it has decided
      obtain rfl : t = i.mover := congrArg Call.thread hcall
      exact h.deciding n k op _ r ht rfl hcall.symm (hfound hn) hop

/-- The decisions of the others take nothing. -/
theorem Heeded.of_other (h : Heeded t c) (hstep : OrderlyStep grow capacity c i c')
    (hsole : Guarded (SoleReceiver t) c i) {e : Entry Call (AtomicCall α) (Ret α)}
    (hsome : decision grow c i = some e) (hne : i.mover ≠ t) : Heeded t c' := by
  have hother : t ≠ i.mover := hne.symm
  have happly : AtomicCall.apply grow e.op c.shared.inner.queue =
      (c'.shared.inner.queue, e.result) := (points grow capacity).effect hstep hsome
  obtain ⟨horderly, hstep, -⟩ := hstep
  have houtcome : ∀ n, outcome ⟨t, n⟩ c' = outcome ⟨t, n⟩ c := fun n =>
    outcome_others horderly.sound hstep hother
  have hfound : ∀ {n}, Found t n c' → Found t n c := by
    intro n hn
    rwa [Found, houtcome] at hn
  have hreceives : e.op.op.receives = false := by
    cases callMoves_of_step horderly.sound hstep with
    | decides ht _ _ _ _ hdecision =>
      cases hdecision.symm.trans hsome
      exact hsole _ ht hne
    | stays hnone => cases hnone.symm.trans hsome
    | begins hnone => cases hnone.symm.trans hsome
    | returns hnone => cases hnone.symm.trans hsome
  constructor
  · intro n hn hlast
    exact apply_keeps hreceives
      (h.found n (hfound hn) fun m hm => by rw [← houtcome, hlast m hm]) happly
  · intro n k op pc r ht' hr hcall hn hop
    rw [hstep.others hother] at ht'
    rw [call_others hstep hother] at hcall
    exact h.deciding n k op pc r ht' hr hcall (hfound hn) hop
  · intro n op r hn hx hop
    rcases returned_of_step horderly.sound hstep hx with hx | ⟨k, -, hcall⟩
    · exact h.returned n op r (hfound hn) hx hop
    · exact absurd (congrArg Call.thread hcall) hother

/-- On a message that is queued a receive is fruitful, as long as the channel is not dropped. -/
theorem fruitful_of_decision (hop : op.receives = true) (hqueue : c.shared.inner.queue.items ≠ [])
    (hdropping : c.shared.inner.dropping = false) (hjustified : cause.Justified c t op r)
    (happly : AtomicCall.apply grow ⟨op, cause⟩ c.shared.inner.queue = (q', r)) :
    Fruitful op r := by
  cases cause with
  | acts => exact Or.inl (apply_takes hop hqueue happly)
  | gone =>
    have hresult : op.dropped = r := (Prod.mk.inj happly).2
    rcases hjustified with ⟨hreceive, honce, -⟩ | hd
    · cases op with
      | receive => exact absurd rfl hreceive
      | tryReceiveOnce => exact absurd ((unready_item_iff rfl).mp (honce rfl)) hqueue
      | tryReceiveUntil => exact Or.inr (Or.inr ⟨rfl, hresult.symm⟩)
      | _ => cases hop
    · cases hdropping.symm.trans hd
  | late => exact Or.inr (Or.inl hjustified.1)

/-- A decision of the thread itself. -/
theorem Heeded.of_own (h : Heeded i.mover c) (hstep : OrderlyStep grow capacity c i c')
    (hdropping : c.shared.inner.dropping = false) {e : Entry Call (AtomicCall α) (Ret α)}
    (hsome : decision grow c i = some e) : Heeded i.mover c' := by
  have happly : AtomicCall.apply grow e.op c.shared.inner.queue =
      (c'.shared.inner.queue, e.result) := (points grow capacity).effect hstep hsome
  have hkeeps := fun k => (settles (α := α) grow capacity k).keeps hstep
  have hsettles := fun k => (settles (α := α) grow capacity k).settles hstep hsome
  obtain ⟨horderly, hstep, -⟩ := hstep
  have hjustified := (justified_of_step horderly hstep hsome).2
  cases callMoves_of_step horderly.sound hstep with
  | @decides k op pc pc' r ht ht' _ hpc hpc' hdecision hcall hresults =>
    cases hdecision.symm.trans hsome
    obtain ⟨hbefore, hafter⟩ := hsettles _ rfl
    have hothers : ∀ n, n ≠ c.shared.history.calls i.mover →
        outcome ⟨i.mover, n⟩ c' = outcome ⟨i.mover, n⟩ c := by
      refine fun n hn => hkeeps _ fun e he heq => hn ?_
      cases hdecision.symm.trans he
      exact (congrArg Call.number heq).symm
    have hlater : ∀ m, c.shared.history.calls i.mover < m → outcome ⟨i.mover, m⟩ c = none :=
      fun m hm => outcome_eq_none horderly hm
    constructor
    · intro n hn hlast
      rcases Nat.lt_trichotomy n (c.shared.history.calls i.mover) with hlt | rfl | hgt
      · -- the thread has decided since
        cases (hlast _ hlt).symm.trans hafter
      · -- it decides that there is a message, and sees one
        cases hn.symm.trans hafter
        obtain ⟨rfl, hcause, hqueue⟩ := apply_found happly
        rw [hcause] at hjustified
        rw [hqueue]
        rcases hjustified.2 rfl with hready | hd
        · exact fun hempty => hready ((unready_item_iff rfl).mpr hempty)
        · cases hdropping.symm.trans hd
      · rw [Found, hothers n (Nat.ne_of_gt hgt), hlater n hgt] at hn
        cases hn
    · intro n k' op' pc'' r' ht'' hr' hnumber hn hop
      cases ht'.symm.trans ht''
      cases hpc'.symm.trans hr'
      rw [hcall] at hnumber
      have hn' : n + 1 = c.shared.history.calls i.mover := (congrArg Call.number hnumber).symm
      rw [Found, hothers n (by omega)] at hn
      -- since it found the message it has not decided
      refine fruitful_of_decision hop (h.found n hn fun m hm => ?_) hdropping hjustified happly
      rcases Nat.lt_or_ge (c.shared.history.calls i.mover) m with hgt | hle
      · exact hlater m hgt
      · obtain rfl : m = c.shared.history.calls i.mover := by omega
        exact hbefore
    · intro n op' r' hn hx hop
      rw [hresults] at hx
      have hle : n + 1 ≤ c.shared.history.calls i.mover := horderly.recorded.global.results _ hx
      rw [Found, hothers n (by omega)] at hn
      exact h.returned n op' r' hn hx hop
  | stays hnone => cases hnone.symm.trans hsome
  | begins hnone => cases hnone.symm.trans hsome
  | returns hnone => cases hnone.symm.trans hsome

theorem Heeded.step (h : Heeded t c) (hstep : OrderlyStep grow capacity c i c')
    (hsole : Guarded (SoleReceiver t) c i) (hdropping : c.shared.inner.dropping = false) :
    Heeded t c' := by
  cases hdecision : decision grow c i with
  | none => exact h.of_silent hstep hdecision
  | some e =>
    by_cases hmover : i.mover = t
    · subst hmover
      exact h.of_own hstep hdropping hdecision
    · exact h.of_other hstep hsole hdecision hmover

theorem heeded_initial (t : Tid) (capacity : ℕ) : Heeded t (initial (α := α) capacity) where
  found n hn := by cases (outcome_initial _ capacity).symm.trans hn
  deciding n h op pc r ht := by cases ht
  returned n op r hn := by cases (outcome_initial _ capacity).symm.trans hn

/-! ## Runs -/

/-- `dropping` is set for good. -/
theorem undropped_of_step (hstep : Step (program grow) c i c')
    (hdropping : c'.shared.inner.dropping = false) : c.shared.inner.dropping = false := by
  by_contra hset
  have hd : c.shared.inner.dropping = true := by simpa using hset
  rcases hstep.moves with ⟨l, l', -, -, hgoes⟩ | ⟨hs, -⟩
  · cases hdropping.symm.trans ((moves_of_goes hgoes).dropping_mono hd)
  · rw [hs] at hdropping
    cases hdropping.symm.trans hd

theorem heeded_of_run (hrun : Run (OrderlyStep grow capacity) (initial capacity) tr c)
    (hsole : Throughout (Guarded (SoleReceiver t)) tr)
    (hdropping : c.shared.inner.dropping = false) : Heeded t c := by
  induction hrun with
  | start => exact heeded_initial t capacity
  | next _ hnext ih =>
    obtain ⟨hi, htail⟩ := throughout_cons.mp hsole
    have hbefore := undropped_of_step hnext.2.1 hdropping
    exact (ih htail hbefore).step hnext hi hbefore

/-- **Wait, then receive**: before the teardown, and when `t` is the only thread that receives, a
`wait_for_message` of `t` that has returned `Ok` is followed by a receive that takes a message; with
a deadline it may time out instead, and `try_receive_until` may report that no sender is left. Until
the thread's next call the message stays in the queue. Deadlines are taken as converted. -/
theorem wait_then_receive (hrun : Run (Step (program grow)) (initial capacity) tr c)
    (hsole : Throughout (Guarded (SoleReceiver t)) tr)
    (hdropping : c.shared.inner.dropping = false) (n : ℕ)
    (hwaited : (⟨t, n⟩, .waitForMessageUntil, .waitForMessage (.ok ())) ∈
      c.shared.history.results) :
    (c.shared.history.calls t = n → c.shared.inner.queue.items ≠ []) ∧
    ∀ op r, (⟨t, n + 1⟩, op, r) ∈ c.shared.history.results → op.receives = true →
      Fruitful op r := by
  have hfrees : c.shared.queueFrees = 0 := by
    by_contra hfrees
    cases hdropping.symm.trans ((sound_of_run hrun).teardown.global (Or.inl hfrees))
  have hkeeps := keepsQueue_of_run hrun hfrees
  have horderly := orderly_of_run hrun hkeeps
  have hrun' := run_of_orderly hrun horderly hkeeps
  have hheeded := heeded_of_run hrun' hsole hdropping
  have hfound : Found t n c := (decidesOnce_of_returned hrun hrun' hwaited).1
  refine ⟨fun hlast => hheeded.found n hfound fun m hm => ?_, fun op r => ?_⟩
  · exact outcome_eq_none horderly.1 (hlast.symm ▸ hm)
  · exact hheeded.returned n op r hfound

/-- A child that is forked sends a message to its parent, which waits for it and receives it. -/
def messageToParent : List (Event ℕ) :=
  making ⟨0, 0⟩ 0 .receiver ++ .ask ⟨0, 0⟩ .fork :: making ⟨1, 0⟩ 2 .sender ++
    calling ⟨0, 0⟩ 1 .waitForMessageUntil 5 ++ calling ⟨1, 0⟩ 4 (.trySend 9) 6 ++
    .notify ⟨1, 0⟩ ⟨0, 0⟩ :: runs ⟨1, 0⟩ 2 ++ runs ⟨0, 0⟩ 4 ++ calling ⟨0, 0⟩ 1 .receive 7

theorem wait_then_receive_message : ∃ tr, ∃ c : State ℕ,
    Run (Step (program fun _ => none)) (initial 1) tr c ∧
      (⟨⟨0, 0⟩, 2⟩, .receive, .receive (some 9)) ∈ c.shared.history.results ∧
      Fruitful (.receive : Op ℕ) (.receive (some 9)) := by
  obtain ⟨tr, c, hrun, hsole, htest⟩ := exists_run_of_exec (program fun _ => none)
    (fun c i => decide (Guarded (SoleReceiver ⟨0, 0⟩) c i)) (initial 1) messageToParent
    (fun c => c.shared.inner.dropping = false ∧
      (⟨⟨0, 0⟩, 1⟩, .waitForMessageUntil, .waitForMessage (.ok ())) ∈ c.shared.history.results ∧
      (⟨⟨0, 0⟩, 2⟩, .receive, .receive (some 9)) ∈ c.shared.history.results) (by decide)
  obtain ⟨hdropping, hwaited, hreceived⟩ := of_decide_eq_true htest
  have hsole' : Throughout (Guarded (SoleReceiver ⟨0, 0⟩)) tr :=
    fun x hx => of_decide_eq_true (hsole x hx)
  exact ⟨tr, c, hrun, hreceived,
    (wait_then_receive hrun hsole' hdropping 1 hwaited).2 .receive _ hreceived rfl⟩

end ShmemUtils.Channel
