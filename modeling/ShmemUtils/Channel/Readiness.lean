import ShmemUtils.Channel.Teardown

/-!
# What a call knows about the queue

Under the mutex a call knows what it has read from the queue, until it moves an item itself. The
reason for which its wait ended is not remembered: `try_send`, `try_send_until` and
`try_receive_until` read the counter and `dropping` again, and the queue is ready for them only as
far as the second read of the counter agrees with the first. `readyOutline` takes this agreement as
a condition on the steps, for the operations of one side.
-/

namespace ShmemUtils.Channel

open ShmemUtils.Library ShmemUtils.Library.Monitor

variable {α : Type} {grow : ℕ → Option ℕ} {t u : Tid} {l l' : Pc α} {s s' : Shared α}

/-- The second read of the counter agrees with the first: when the queue is not ready, the wait
ended for want of peers or because of `dropping`, and that is still so. -/
def Agrees (side : Option Side) (_ : Tid) : Pc α → Shared α → Prop
  | .op _ op .readPeers, s => op.rereads = true → op.side ∈ side → op.Unready s.inner →
      op.side.peers s.inner = 0 ∨ s.inner.dropping = true
  | _, _ => True

instance (side : Option Side) (t : Tid) (l : Pc α) (s : Shared α) :
    Decidable (Agrees side t l s) := by
  unfold Agrees
  split <;> infer_instance

theorem throughout_agrees_none (tr : Trace α) : Throughout (Guarded (Agrees none)) tr := by
  intro x _ l _
  unfold Agrees
  split
  · intro _ hside
    cases hside
  · trivial

/-! ## Assertions at the points of an operation -/

/-- What a call knows at a point, when the reads of the operations on `side` agree; with `none` the
reads of no operation need to. -/
def OpPc.Knows (side : Option Side) (op : Op α) (inner : Inner α) : OpPc α → Prop
  | .testPeers _ => op.side = .item → op.Unready inner
  | .testDropping _ => op.side = .item → op.Unready inner
  | .readPeers =>
      (op = .tryReceiveOnce → op.Unready inner) ∧
      ∀ item, op = .trySendOnce item → ¬ op.Unready inner
  | .readDropping =>
      (op = .tryReceiveOnce → op.Unready inner) ∧
      (∀ item, op = .trySendOnce item → ¬ op.Unready inner) ∧
      (op.rereads = true → op.side ∈ side → op.Unready inner → inner.dropping = true)
  | .transfer =>
      (∀ item, op = .trySendOnce item → ¬ op.Unready inner) ∧
      (op.rereads = true → op.side ∈ side → ¬ op.Unready inner)
  | .notify r => r ≠ .panicked
  | .unlock r => op.side ∈ side → r ≠ .panicked
  | .ret r => op.side ∈ side → r ≠ .panicked
  | _ => True

section Knows

variable {side : Option Side} {op : Op α} {pc pc' : OpPc α}

/-- With spare capacity a push succeeds. -/
theorem pushBack_of_ready (item : α) (h : Side.space.queueReady s.inner.queue = true) :
    s.pushBack grow t item ≠ none := by
  have hroom : s.inner.queue.remainingCapacity ≠ 0 := by simpa [Side.queueReady] using h
  simp [Shared.pushBack, VecDeque.pushBack, hroom]

/-- With an item in the queue a pop succeeds. -/
theorem popFront_of_ready (h : Side.item.queueReady s.inner.queue = true) :
    s.popFront t ≠ none := by
  cases hitems : s.inner.queue.items with
  | nil => simp [Side.queueReady, VecDeque.isEmpty, hitems] at h
  | cons item items => simp [Shared.popFront, VecDeque.popFront, hitems]

/-- An operation goes on after its wait without relying on the queue, except for `try_send_once`. -/
theorem knows_resume {inner : Inner α} (honce : op ≠ .tryReceiveOnce)
    (hready : ∀ item, op = .trySendOnce item → ¬ op.Unready inner) :
    op.resume.Knows side op inner := by
  cases op with
  | receive => exact ⟨fun item heq => (by cases heq), fun heq => (by cases heq)⟩
  | waitForMessageUntil => exact fun _ heq => by cases heq
  | _ => exact ⟨fun heq => absurd heq honce, hready⟩

/-- An operation carries its knowledge from point to point. -/
theorem op_knows (hgoes : (op.action grow t pc).Goes s pc' s') (hpc : pc.Knows side op s.inner)
    (hagrees : pc = .readPeers → op.rereads = true → op.side ∈ side → op.Unready s.inner →
      op.side.peers s.inner = 0 ∨ s.inner.dropping = true) : pc'.Knows side op s'.inner := by
  have hwaits : op.waits = true → op.resume.Knows side op s.inner := by
    intro hop
    apply knows_resume
    · rintro rfl
      cases hop
    · rintro item rfl
      cases hop
  cases opMoves_of_goes hgoes with
  | begins => trivial
  | dropped => exact fun _ => op.dropped_ne_panicked
  | locked => trivial
  | lockedOnce hop =>
    subst hop
    exact ⟨fun item heq => (by cases heq), fun heq => (by cases heq)⟩
  | retries => trivial
  | givesUp hr => exact fun _ => Op.expired_ne_panicked hr
  | ready honce hready => exact knows_resume honce fun _ _ => hready
  | full => exact fun _ heq => by cases heq
  | unready _ hun => exact fun _ => hun
  | lonely _ hun => exact fun _ => hun
  | disconnected hop => exact hwaits hop
  | connected => exact hpc
  | released hop => exact hwaits hop
  | sleeps => trivial
  | expires _ hr => exact fun _ => Op.expired_ne_panicked hr
  | alone => exact fun _ => op.dropped_ne_panicked
  | accompanied hpos =>
    refine ⟨hpc.1, hpc.2, fun hop hside hun => ?_⟩
    exact (hagrees rfl hop hside hun).resolve_left hpos
  | readDropped => exact fun _ => op.dropped_ne_panicked
  | goesOn honce hd =>
    refine ⟨hpc.2.1, fun hop hside hun => ?_⟩
    -- an unready queue here would mean that `dropping` is set, and it was just read as unset
    have hset := hpc.2.2 hop hside hun
    rw [hd] at hset
    cases hset
  | nothing => exact fun _ heq => by cases heq
  | push => exact op.success_ne_panicked
  | pushFails hitem hnone =>
    intro hside _
    -- a send comes here only after it has found a free slot
    have hready : ¬ op.Unready s.inner := by
      cases op with
      | trySend item => exact hpc.2 rfl hside
      | trySendUntil item => exact hpc.2 rfl hside
      | trySendOnce item => exact hpc.1 item rfl
      | _ => cases hitem
    refine pushBack_of_ready _ ?_ hnone
    rw [← Op.side_of_item hitem]
    simpa [Op.Unready] using hready
  | pop hr => exact Op.delivery_ne_panicked hr
  | popNothing => exact fun _ heq => by cases heq
  | popFails hop hnone =>
    subst hop
    intro hside _
    have hready : ¬ Op.Unready .tryReceiveUntil s.inner := hpc.2 rfl hside
    exact popFront_of_ready (by simpa [Op.Unready, Op.side] using hready) hnone
  | popNone hop hnone =>
    subst hop
    refine ⟨fun _ => ?_, fun item heq => (by cases heq)⟩
    by_contra hready
    exact popFront_of_ready (by simpa [Op.Unready, Op.side] using hready) hnone
  | notify => exact fun _ => hpc
  | unlock => exact hpc

/-- A dropped queue is empty. -/
theorem unready_of_dropped {inner' : Inner α} (hop : op.side = .item)
    (hqueue : inner'.queue.items = []) : op.Unready inner' := by
  simp [Op.Unready, hop, Side.queueReady, VecDeque.isEmpty, hqueue]

/-- A queue that is full after it was dropped has no capacity. -/
theorem unready_of_unready_dropped {inner inner' : Inner α} (hop : op.side = .space)
    (hqueue : inner'.queue = { inner.queue with items := [] }) (h : op.Unready inner') :
    op.Unready inner := by
  simp only [Op.Unready, hop, Side.queueReady, VecDeque.remainingCapacity, hqueue,
    List.length_nil, bne_eq_false_iff_eq] at h ⊢
  omega

/-- A change of the queue from outside: none, or the drop of the queue in a teardown. -/
theorem OpPc.Knows.frame {inner inner' : Inner α} (h : pc.Knows side op inner)
    (hdropping : inner.dropping = true → inner'.dropping = true)
    (hqueue : inner'.queue = inner.queue ∨
      inner'.queue = { inner.queue with items := [] } ∧ inner'.dropping = true ∧
        (op.rereads = true → pc ≠ .transfer)) : pc.Knows side op inner' := by
  rcases hqueue with hqueue | ⟨hqueue, hdrop, htransfer⟩
  · -- the queue is the same, and `dropping` only goes up
    have hsame : op.Unready inner' ↔ op.Unready inner := by simp only [Op.Unready, hqueue]
    cases pc with
    | readDropping =>
      simp only [OpPc.Knows, hsame] at h ⊢
      exact ⟨h.1, h.2.1, fun hop hside hun => hdropping (h.2.2 hop hside hun)⟩
    | _ => first | exact h | simpa only [OpPc.Knows, hsame] using h
  -- the queue was dropped: it is empty, and its capacity is what it was
  have hempty : inner'.queue.items = [] := by rw [hqueue]
  have hitem : op.side = .item → op.Unready inner' := fun hop => unready_of_dropped hop hempty
  have hspace : op.side = .space → op.Unready inner' → op.Unready inner :=
    fun hop => unready_of_unready_dropped hop hqueue
  cases pc with
  | testPeers late => exact hitem
  | testDropping late => exact hitem
  | readPeers =>
    refine ⟨fun hop => hitem (by rw [hop]; rfl), fun item hop hun => h.2 item hop ?_⟩
    exact hspace (by rw [hop]; rfl) hun
  | readDropping =>
    refine ⟨fun hop => hitem (by rw [hop]; rfl), fun item hop hun => h.2.1 item hop ?_,
      fun _ _ _ => hdrop⟩
    exact hspace (by rw [hop]; rfl) hun
  | transfer =>
    refine ⟨fun item hop hun => h.1 item hop ?_, fun hop => absurd rfl (htransfer hop)⟩
    exact hspace (by rw [hop]; rfl) hun
  | _ => exact h

end Knows

/-! ## The outline -/

/-- Operations know what `OpPc.Knows` says, a teardown that `dropping` is set; and when the reads
of the sends agree, the queue stays within its first capacity. -/
def readyOutline (side : Option Side) (capacity : ℕ) : Outline (Shared α) Tid (Pc α) where
  global s := .space ∈ side →
    s.inner.queue.capacity = capacity ∧ s.inner.queue.items.length ≤ capacity
  running t l s := teardownOutline.running t l s ∧
    ∀ h op pc, l = .op h op pc → pc.Knows side op s.inner
  asleep := teardownOutline.asleep

variable {side : Option Side} {capacity : ℕ}

/-- A send that knows what the outline says finds room at its push. -/
theorem room_of_knows {op : Op α} {item : α} (hitem : op.item? = some item)
    (h : OpPc.Knows (some .space) op s.inner .transfer) : s.inner.queue.remainingCapacity ≠ 0 := by
  have hready : ¬ op.Unready s.inner := by
    cases op with
    | trySend item => exact h.2 rfl rfl
    | trySendUntil item => exact h.2 rfl rfl
    | trySendOnce item => exact h.1 item rfl
    | _ => cases hitem
  have hside : op.side = .space := Op.side_of_item hitem
  simpa [Op.Unready, hside, Side.queueReady] using hready

/-- Nothing but a push lengthens the queue, and a push with room keeps it within the capacity. -/
theorem Moves.within (hm : Moves grow t l s l' s')
    (hl : (readyOutline side capacity).running t l s)
    (h : (readyOutline side capacity).global s) : (readyOutline side capacity).global s' := by
  rintro rfl
  obtain ⟨hcap, hlen⟩ := h rfl
  rcases hm.queue with ⟨k, op, rfl, ⟨item, hitem, hs⟩ | ⟨-, item, hs⟩⟩ | ⟨d, -, hq⟩ | hq
  · -- a push: the send knows that there is room, so the deque does not grow
    have hroom := room_of_knows hitem (hl.2 k op _ rfl)
    obtain ⟨queue, hqueue, hinner⟩ := pushBack_inner hs
    rw [VecDeque.pushBack, if_pos hroom] at hqueue
    cases hqueue
    simp only [VecDeque.remainingCapacity] at hroom
    rw [hinner]
    refine ⟨hcap, ?_⟩
    simp only [List.length_append, List.length_singleton]
    omega
  · obtain ⟨queue, hqueue, hinner⟩ := popFront_inner hs
    rw [hinner]
    cases hitems : s.inner.queue.items with
    | nil => simp [VecDeque.popFront, hitems] at hqueue
    | cons x xs =>
      simp only [VecDeque.popFront, hitems, Option.some.injEq, Prod.mk.injEq] at hqueue
      obtain ⟨-, rfl⟩ := hqueue
      rw [hitems, List.length_cons] at hlen
      exact ⟨hcap, Nat.le_of_succ_le hlen⟩
  · rw [hq]
    exact ⟨hcap, Nat.zero_le _⟩
  · rw [hq]
    exact ⟨hcap, hlen⟩

/-- What a move leads to knows what the outline says, where the reads agree. -/
theorem Moves.knows (hm : Moves grow t l s l' s') (hl : (readyOutline side capacity).running t l s)
    (hagrees : Agrees side t l s) : ∀ h op pc, l' = .op h op pc → pc.Knows side op s'.inner := by
  rintro h op pc' rfl
  cases hm with
  | asked ha =>
    cases ha
    trivial
  | op hgoes =>
    refine op_knows hgoes (hl.2 h op _ rfl) ?_
    rintro rfl
    exact hagrees
  | make hmake => cases hmake
  | drop hdrop => cases hdrop

theorem readyOutline_valid : (readyOutline (α := α) side capacity).Valid (program grow)
    NeverTogether (Agrees side) where
  own {t l s} hglobal hl hagrees :=
    program_establishes
      (fun l' s' hm => ⟨hm.within hl hglobal, hm.teardown hl.1, hm.knows hl hagrees⟩)
      fun h op late _ => ⟨h, op, late, rfl⟩
  wake _ hasleep := by
    obtain ⟨h, op, late, rfl⟩ := hasleep
    refine ⟨fun d pc heq => (by cases heq), fun h' op' pc' heq => ?_⟩
    cases heq
    trivial
  frame {t u l l' k s s'} _ _ hmover _ hgoes hapart hl := by
    have hm := moves_of_goes hgoes
    refine ⟨fun d pc heq htear => hm.dropping_mono (hl.1 d pc heq htear), ?_⟩
    rintro h op pc rfl
    -- with the mutex in hand only a teardown changes the queue
    by_cases hhold : pc.holding = true
    · refine (hl.2 h op pc rfl).frame hm.dropping_mono ?_
      rcases hm.queue with ⟨h', op', rfl, -⟩ | ⟨d, rfl, hq⟩ | hq
      · exact absurd (Or.inl ⟨hhold, rfl⟩) hapart
      · refine Or.inr ⟨hq, hm.dropping_mono (hmover.1 d _ rfl rfl), fun hop heq => hapart ?_⟩
        subst heq
        exact Or.inr ⟨h, op, d, hop, rfl, rfl⟩
      · exact Or.inl hq
    · have hknows := hl.2 h op pc rfl
      cases pc <;> first | exact hknows | exact absurd rfl hhold
  frameAsleep _ _ _ _ _ hasleep := hasleep

theorem readyOutline_initial (side : Option Side) (capacity : ℕ) :
    (readyOutline (α := α) side capacity).Holds (initial capacity) where
  global _ := ⟨rfl, Nat.zero_le _⟩
  at_ _ := ⟨fun d pc heq => (by cases heq), fun h op pc heq => (by cases heq)⟩

/-- **The second reads are enough**: in a run where they agree with the first ones, every call
knows about the queue what it relies on, in every state. -/
theorem ready_of_run {tr : Trace α} {c : State α}
    (hrun : Run (Step (program grow)) (initial capacity) tr c)
    (hok : Throughout (Guarded (Agrees side)) tr) :
    Everywhere (fun c => Sound c ∧ (readyOutline side capacity).Holds c) tr c :=
  readyOutline_valid.run hrun (sound_initial capacity) (fun h hstep => h.step hstep)
    (fun h => h.apart) (readyOutline_initial side capacity) hok

/-! ## When the reads disagree -/

/-- The second reads of an operation, of the counter and of `dropping`. -/
theorem action_reread (grow : ℕ → Option ℕ) (t : Tid) {op : Op α} (hop : op.rereads = true) :
    (∃ r, op.action grow t .readPeers = read fun inner =>
      if op.side.peers inner = 0 then .unlock r else .readDropping) ∧
    ∃ r, op.action grow t .readDropping = read fun inner =>
      if inner.dropping then .unlock r else .transfer := by
  cases op with
  | tryReceiveUntil => exact ⟨⟨_, rfl⟩, ⟨_, rfl⟩⟩
  | trySend item => exact ⟨⟨_, rfl⟩, ⟨_, rfl⟩⟩
  | trySendUntil item => exact ⟨⟨_, rfl⟩, ⟨_, rfl⟩⟩
  | _ => cases hop

/-- A read takes one step, and changes nothing but where the thread is. -/
theorem step_of_read {c : State α} {h : ℕ} {op : Op α} {pc : OpPc α} {f : Inner α → OpPc α}
    (ht : c.threads t = .running (.op h op pc)) (hpc : ∀ r, pc ≠ .ret r)
    (hact : op.action grow t pc = read f) :
    Step (program grow) c (.run t) (c.goto t (.running (.op h op (f c.shared.inner)))) := by
  have hprogram : program grow t (.op h op pc) =
      .atomic fun s => (s, .op h op (f s.inner)) := by
    rw [program_op hpc, hact]
    rfl
  exact .atomic ht hprogram

/-- **Where the reads disagree, the operation goes on to a queue that is not ready for it**, in two
steps of its own. -/
theorem transfer_of_disagrees (grow : ℕ → Option ℕ) {c : State α}
    (ht : c.threads t = .running l) (h : ¬ Agrees side t l c.shared) :
    ∃ k op c₁ c₂, op.rereads = true ∧ op.side ∈ side ∧ Step (program grow) c (.run t) c₁ ∧
      Step (program grow) c₁ (.run t) c₂ ∧ c₂.threads t = .running (.op k op .transfer) ∧
      op.Unready c₂.shared.inner := by
  obtain ⟨k, op, rfl, hop, hside, hun, hpeers, hd⟩ : ∃ k op, l = .op k op .readPeers ∧
      op.rereads = true ∧ op.side ∈ side ∧ op.Unready c.shared.inner ∧
      op.side.peers c.shared.inner ≠ 0 ∧ c.shared.inner.dropping = false := by
    unfold Agrees at h
    split at h
    · push Not at h
      obtain ⟨hop, hside, hun, hpeers, hd⟩ := h
      exact ⟨_, _, rfl, hop, hside, hun, hpeers, by simpa using hd⟩
    · exact absurd trivial h
  -- neither the counter nor `dropping` stops it
  obtain ⟨⟨r, hread⟩, ⟨r', hread'⟩⟩ := action_reread grow t hop
  have hfirst := step_of_read ht (by simp) hread
  rw [if_neg hpeers] at hfirst
  have hsecond := step_of_read
    (Config.goto_threads_self c t (.running (.op k op .readDropping))) (by simp) hread'
  rw [Config.goto_shared, if_neg (by simp [hd])] at hsecond
  exact ⟨k, op, _, _, hop, hside, hfirst, hsecond, Config.goto_threads_self _ _ _, hun⟩

end ShmemUtils.Channel
