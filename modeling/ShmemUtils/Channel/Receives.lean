import ShmemUtils.Channel.Readiness

/-!
# What the receives deliver

The three receives look at the queue, the counter of senders and `dropping` in different orders.
`receive` and `try_receive_once` take the front item whenever there is one; `try_receive_until`
reads the counter again after its wait, and then leaves a queued item when it is zero, or relies on
an item that may not be there when it is not.
-/

namespace ShmemUtils.Channel

open ShmemUtils.Library ShmemUtils.Library.Monitor

variable {α : Type} {grow : ℕ → Option ℕ} {t : Tid} {s s' : Shared α} {capacity : ℕ}
  {c c' : State α} {i : Event α} {tr : Trace α}

/-! ## Deciding a result -/

/-- In the step, the operation that `t` is in decides with the mutex held to return `r`. -/
def Decides (c : State α) (t : Tid) (c' : State α) (op : Op α) (r : Ret α) : Prop :=
  ∃ h pc pc', c.threads t = .running (.op h op pc) ∧ c'.threads t = .running (.op h op pc') ∧
    pc.holding = true ∧ pc.result? = none ∧ pc'.result? = some r

/-- A receive that decides its result on a non-empty queue before the teardown takes the front item
and nothing else, and returns it. -/
def Delivers (c : State α) (i : Event α) (c' : State α) : Prop :=
  ∀ op r item items, op.receives = true → Decides c i.mover c' op r →
    c.shared.inner.dropping = false → c.shared.inner.queue.items = item :: items →
      op.delivery item = some r ∧ c'.shared.inner.queue.items = items

/-- `try_receive_until` is about to read the counter of senders after its wait, with no senders left
and items in the queue. -/
def Abandons : Pc α → Shared α → Prop
  | .op _ .tryReceiveUntil .readPeers, s =>
      s.inner.senders = 0 ∧ s.inner.dropping = false ∧ s.inner.queue.isEmpty = false
  | _, _ => False

instance (l : Pc α) (s : Shared α) : Decidable (Abandons l s) :=
  decidable_of_iff
    ((match l with
      | .op _ .tryReceiveUntil .readPeers =>
          decide (s.inner.senders = 0 ∧ s.inner.dropping = false ∧ s.inner.queue.isEmpty = false)
      | _ => false) = true)
    (by
      unfold Abandons
      split <;> simp)

theorem popFront_of_cons {item x : α} {items : List α}
    (hitems : s.inner.queue.items = item :: items) (h : s.popFront t = some (x, s')) :
    x = item ∧ s'.inner.queue.items = items := by
  obtain ⟨queue, hqueue, hinner⟩ := popFront_inner h
  simp only [VecDeque.popFront, hitems, Option.some.injEq, Prod.mk.injEq] at hqueue
  obtain ⟨rfl, rfl⟩ := hqueue
  exact ⟨rfl, by rw [hinner]⟩

/-- An operation that decides on a non-empty queue takes the front item, unless it is
`try_receive_until` without senders. -/
theorem op_decides {op : Op α} {pc pc' : OpPc α} {r : Ret α} {item : α} {items : List α}
    (hgoes : (op.action grow t pc).Goes s pc' s') (hpc : pc.Knows none op s.inner)
    (hop : op.receives = true) (hhold : pc.holding = true) (hbefore : pc.result? = none)
    (hafter : pc'.result? = some r) (hd : s.inner.dropping = false)
    (hitems : s.inner.queue.items = item :: items)
    (hsenders : op = .tryReceiveUntil → pc = .readPeers → s.inner.senders ≠ 0) :
    op.delivery item = some r ∧ s'.inner.queue.items = items := by
  -- the item at the front makes the queue ready, and a pop succeed
  have hready : ¬ op.Unready s.inner := by
    simp [Op.Unready, Op.side_of_receives hop, Side.queueReady, VecDeque.isEmpty, hitems]
  have hside : op.side = .item := Op.side_of_receives hop
  have hsome : s.popFront t ≠ none :=
    popFront_of_ready (by simp [Side.queueReady, VecDeque.isEmpty, hitems])
  cases opMoves_of_goes hgoes with
  | givesUp => cases hhold
  | dropped => cases hhold
  | ready =>
    cases op with
    | receive => cases hafter
    | tryReceiveUntil => cases hafter
    | tryReceiveOnce => cases hafter
    | _ => cases hop
  | disconnected =>
    cases op with
    | receive => cases hafter
    | tryReceiveUntil => cases hafter
    | tryReceiveOnce => cases hafter
    | _ => cases hop
  | full heq =>
    subst heq
    cases hop
  | expires => exact absurd (hpc hside) hready
  | released _ hset =>
    rw [hset] at hd
    cases hd
  | alone hreceive hzero =>
    -- `try_receive_once` has already found the queue empty
    cases op with
    | receive => exact absurd rfl hreceive
    | tryReceiveUntil => exact absurd hzero (hsenders rfl rfl)
    | tryReceiveOnce => exact absurd (hpc.1 rfl) hready
    | _ => cases hop
  | readDropped hset =>
    rw [hset] at hd
    cases hd
  | nothing honce => exact absurd (hpc.1 honce) hready
  | push hitem =>
    rw [Op.item?_of_receives hop] at hitem
    cases hitem
  | pushFails hitem =>
    rw [Op.item?_of_receives hop] at hitem
    cases hitem
  | pop hr hs =>
    obtain ⟨rfl, hrest⟩ := popFront_of_cons hitems hs
    cases hafter
    exact ⟨hr, hrest⟩
  | popNothing _ hnone => exact absurd hnone hsome
  | popFails _ hnone => exact absurd hnone hsome
  | popNone _ hnone => exact absurd hnone hsome
  | notify => cases hbefore
  | unlock => cases hbefore
  | _ => cases hafter

/-- A step delivers unless `try_receive_until` abandons an item in it. -/
theorem delivers_iff (hready : (readyOutline none capacity).Holds c)
    (hstep : Step (program grow) c i c') :
    Delivers c i c' ↔ Guarded (fun _ l s => ¬ Abandons l s) c i := by
  constructor
  · intro hdelivers l ht habandons
    unfold Abandons at habandons
    split at habandons
    · next h =>
      obtain ⟨hsenders, hd, hempty⟩ := habandons
      -- there is a front item that the step has to deliver
      obtain ⟨item, items, hcons⟩ := List.exists_cons_of_ne_nil
        (show c.shared.inner.queue.items ≠ [] by simpa [VecDeque.isEmpty] using hempty)
      rcases op_of_step hstep ht with ⟨pc', ht', hgoes⟩ | ⟨r, hpc, -⟩ | ⟨hpc, -⟩
      · -- the step from `readPeers` decides on `NoSenders`, and leaves the item where it is
        simp only [Op.action, Inner.tryReceiveUntil, goes_read, if_pos hsenders] at hgoes
        have hfront := hdelivers .tryReceiveUntil (.tryReceive (.error .noSenders)) item items rfl
          ⟨h, .readPeers, pc', ht, ht', rfl, rfl, by rw [hgoes.2]; rfl⟩ hd hcons
        cases hfront.1
      · cases hpc
      · cases hpc
    · exact habandons
  · rintro hnot op r item items hop ⟨h, pc, pc', ht, ht', hhold, hbefore, hafter⟩ hd hitems
    rcases op_of_step hstep ht with ⟨pc'', hl', hgoes⟩ | ⟨r', rfl, -⟩ | ⟨-, -, cv, next, late, hb⟩
    · cases hl'.symm.trans ht'
      refine op_decides hgoes ((hready.running ht).2 h op pc rfl) hop hhold hbefore hafter hd
        hitems ?_
      rintro rfl rfl hzero
      exact hnot _ ht ⟨hzero, hd, by simp [VecDeque.isEmpty, hitems]⟩
    · cases hbefore
    · cases hb.symm.trans ht'

theorem op_result {op : Op α} {pc pc' : OpPc α} {r : Ret α}
    (hgoes : (op.action grow t pc).Goes s pc' s') (hr : pc.result? = some r) :
    s' = s ∧ pc'.result? = some r := by
  cases opMoves_of_goes hgoes with
  | notify => exact ⟨rfl, hr⟩
  | unlock => exact ⟨rfl, hr⟩
  | _ => cases hr

/-- What has been decided is what the call returns. -/
theorem result_of_step {h : ℕ} {op : Op α} {pc : OpPc α} {r : Ret α}
    (hstep : Step (program grow) c i c') (ht : c.threads i.mover = .running (.op h op pc))
    (hr : pc.result? = some r) :
    (c'.shared = c.shared ∧
      ∃ pc', c'.threads i.mover = .running (.op h op pc') ∧ pc'.result? = some r) ∨
    c'.shared = c.shared.finish i.mover h op r ∧ c'.threads i.mover = .running .idle := by
  rcases op_of_step hstep ht with ⟨pc', ht', hgoes⟩ | ⟨r', rfl, ht', hs⟩ | ⟨rfl, -⟩
  · obtain ⟨hs, hr'⟩ := op_result hgoes hr
    exact Or.inl ⟨hs, pc', ht', hr'⟩
  · cases hr
    exact Or.inr ⟨hs, ht'⟩
  · cases hr

/-- **The receives agree on what is queued**: before the teardown every receive of a run that
decides on a non-empty queue takes and returns the front item, if and only if no
`try_receive_until` of the run reads a zero counter of senders on a non-empty queue. -/
theorem receives_deliver_iff (hrun : Run (Step (program grow)) (initial capacity) tr c) :
    (Throughout (fun c i => ∀ c', Step (program grow) c i c' → Delivers c i c') tr ↔
      Throughout (Guarded fun _ l s => ¬ Abandons l s) tr) ∧
    ∀ i c' h op pc r, Step (program grow) c i c' →
      c.threads i.mover = .running (.op h op pc) → pc.result? = some r →
        (c'.shared = c.shared ∧
          ∃ pc', c'.threads i.mover = .running (.op h op pc') ∧ pc'.result? = some r) ∨
        c'.shared = c.shared.finish i.mover h op r ∧ c'.threads i.mover = .running .idle := by
  have hready := ready_of_run hrun (throughout_agrees_none tr)
  refine ⟨hrun.throughout_iff hready fun hJ hstep => delivers_iff hJ.2 hstep, ?_⟩
  intro i c' h op pc r hstep ht hr
  exact result_of_step hstep ht hr

/-- An item is sent, its sender is dropped, and `try_receive_until` has evaluated its predicate. -/
def sendAndDisconnect : List (Event ℕ) :=
  making ⟨0, 0⟩ 0 .sender ++ making ⟨0, 0⟩ 0 .receiver ++ calling ⟨0, 0⟩ 1 (.trySend 7) 9 ++
    dropping ⟨0, 0⟩ 1 4 ++ calling ⟨0, 1⟩ 2 .tryReceiveUntil 3

theorem receives_deliver_receive : ∃ tr, ∃ c : State ℕ,
    Run (Step (program fun _ => none)) (initial 1) tr c ∧
      Throughout (fun c i => ∀ c', Step (program fun _ => none) c i c' → Delivers c i c') tr ∧
      c.shared.history.results.length = 2 := by
  obtain ⟨tr, c, hrun, hok, htest⟩ := exists_run_of_exec (program fun _ => none)
    (fun c i => decide (Guarded (fun _ l s => ¬ Abandons l s) c i)) (initial 1)
    (making ⟨0, 0⟩ 0 .sender ++ making ⟨0, 0⟩ 0 .receiver ++ calling ⟨0, 0⟩ 1 (.trySend 7) 9 ++
      dropping ⟨0, 0⟩ 1 4 ++ calling ⟨0, 1⟩ 2 .receive 7)
    (fun c => c.shared.history.results.length = 2) (by decide)
  exact ⟨tr, c, hrun,
    (receives_deliver_iff hrun).1.mpr fun x hx => of_decide_eq_true (hok x hx),
    of_decide_eq_true htest⟩

/-- The item stays in the queue, and `try_receive_until` reports that there are no senders. -/
theorem tryReceiveUntil_abandons : ¬ ∀ tr (c : State ℕ),
    Run (Step (program fun _ => none)) (initial 1) tr c →
      ∀ i c', Step (program fun _ => none) c i c' → Delivers c i c' := by
  intro h
  obtain ⟨tr, c, hrun, -, htest⟩ := exists_run_of_exec (program fun _ => none) (fun _ _ => true)
    (initial 1) sendAndDisconnect
    (fun c => c.threads ⟨0, 1⟩ = .running (.op 2 .tryReceiveUntil .readPeers) ∧
      c.shared.inner.senders = 0 ∧ c.shared.inner.dropping = false ∧
      c.shared.inner.queue.isEmpty = false) (by decide)
  obtain ⟨ht, habandons⟩ := of_decide_eq_true htest
  have hready := ready_of_run hrun (throughout_agrees_none tr)
  obtain ⟨⟨r, hread⟩, -⟩ := action_reread (fun _ => none) ⟨0, 1⟩
    (show Op.rereads (.tryReceiveUntil : Op ℕ) = true from rfl)
  have hstep := step_of_read ht (by simp) hread
  exact (delivers_iff hready.1.2 hstep).mp (h tr c hrun _ _ hstep) _ ht habandons

/-! ## The timed receive -/

/-- A `try_receive_until` that is about to pop has an item, and none has failed to pop. -/
structure TimedReceiveSafe (c : State α) : Prop where
  nonempty : ∀ {t h}, c.threads t = .running (.op h .tryReceiveUntil .transfer) →
    c.shared.inner.queue.items ≠ []
  noPanic : ∀ {t h}, c.threads t ≠ .running (.op h .tryReceiveUntil (.unlock .panicked))

theorem unready_item_iff {op : Op α} (hop : op.side = .item) :
    op.Unready s.inner ↔ s.inner.queue.items = [] := by
  simp [Op.Unready, hop, Side.queueReady, VecDeque.isEmpty]

/-- **A timed receive never panics on an empty queue** in a run where `senders`, read again after
the wait on an empty queue, is still zero or `dropping` is set. Where it is not, the receive pops
from the empty queue if it goes on at once. -/
theorem timed_receive_safe_while_reads_agree
    (hrun : Run (Step (program grow)) (initial capacity) tr c) :
    (Throughout (Guarded (Agrees (some .item))) tr → Everywhere TimedReceiveSafe tr c) ∧
      ∀ t l, c.threads t = .running l → ¬ Agrees (some .item) t l c.shared →
        ∃ c₁ c₂, Step (program grow) c (.run t) c₁ ∧ Step (program grow) c₁ (.run t) c₂ ∧
          ¬ TimedReceiveSafe c₂ := by
  constructor
  · intro hok
    have hsafe : ∀ {c : State α}, (readyOutline (some .item) capacity).Holds c →
        TimedReceiveSafe c := by
      intro c h
      refine ⟨fun {t k} ht hnil => ?_, fun {t k} ht => ?_⟩
      · exact ((h.running ht).2 k _ _ rfl).2 rfl rfl ((unready_item_iff rfl).mpr hnil)
      · exact (h.running ht).2 k _ _ rfl rfl rfl
    have hready := ready_of_run hrun hok
    exact ⟨hsafe hready.1.2, fun x hx => hsafe (hready.2 x hx).2⟩
  · intro t l ht hdisagrees
    obtain ⟨k, op, c₁, c₂, hop, hside, hstep, hstep', ht', hun⟩ :=
      transfer_of_disagrees grow ht hdisagrees
    have hside : op.side = .item := (Option.some.inj hside).symm
    -- of the operations that wait for an item only the timed receive reads again
    have hop : op = .tryReceiveUntil := by cases op <;> simp_all [Op.side, Op.rereads]
    subst hop
    exact ⟨c₁, c₂, hstep, hstep', fun hsafe => hsafe.nonempty ht' ((unready_item_iff rfl).mp hun)⟩

theorem timed_receive_safe_without_senders : ∃ tr, ∃ c : State ℕ,
    Run (Step (program fun _ => none)) (initial 1) tr c ∧ Everywhere TimedReceiveSafe tr c ∧
      c.shared.history.results.length = 1 := by
  obtain ⟨tr, c, hrun, hok, htest⟩ := exists_run_of_exec (program fun _ => none)
    (fun c i => decide (Guarded (Agrees (some .item)) c i)) (initial (α := ℕ) 1)
    (making ⟨0, 0⟩ 0 .receiver ++ calling ⟨0, 1⟩ 1 .tryReceiveUntil 7)
    (fun c => c.shared.history.results.length = 1) (by decide)
  exact ⟨tr, c, hrun,
    (timed_receive_safe_while_reads_agree hrun).1 fun x hx => of_decide_eq_true (hok x hx),
    of_decide_eq_true htest⟩

/-- A sender that is made between the two reads sends the receive on to the empty queue. -/
theorem timed_receive_panics_after_make_sender : ¬ ∀ tr (c : State ℕ),
    Run (Step (program fun _ => none)) (initial 1) tr c → TimedReceiveSafe c := by
  intro h
  obtain ⟨tr, c, hrun, -, htest⟩ := exists_run_of_exec (program fun _ => none) (fun _ _ => true)
    (initial (α := ℕ) 1)
    (making ⟨0, 0⟩ 0 .receiver ++ calling ⟨0, 1⟩ 1 .tryReceiveUntil 4 ++
      making ⟨0, 0⟩ 0 .sender ++ runs ⟨0, 1⟩ 3)
    (fun c => c.threads ⟨0, 1⟩ = .running (.op 1 .tryReceiveUntil (.unlock .panicked)))
    (by decide)
  exact (h tr c hrun).noPanic (of_decide_eq_true htest)

end ShmemUtils.Channel
