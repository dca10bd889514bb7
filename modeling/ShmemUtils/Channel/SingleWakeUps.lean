import ShmemUtils.Library.Handoff
import ShmemUtils.Channel.WakeUps
import ShmemUtils.Channel.PeerCounts

/-!
# One signal for one item

`push` and `pop` signal one waiter each. What they hand over is an item or a free slot, and the
operations that take one are those that wait for it. The count behind `Handoff` then says that no
item and no slot is left lying while somebody waits for it, unless the signal goes to a
`wait_for_message_until`, which takes nothing, or an operation that was woken up gives up because
it finds the counter of the other side at zero.
-/

namespace ShmemUtils.Channel

open ShmemUtils.Library ShmemUtils.Library.Monitor

variable {α : Type} {grow : ℕ → Option ℕ} {t u : Tid} {l l' : Pc α} {s s' : Shared α}
  {side : Side} {capacity : ℕ} {c c' : State α} {i : Event α} {tr : Trace α} {op : Op α}
  {pc pc' : OpPc α}

namespace Side

/-- How much there is of what the waiters of the condition variable need. -/
def amount : Side → VecDeque α → ℕ
  | .item, queue => queue.items.length
  | .space, queue => queue.remainingCapacity

theorem queueReady_iff {queue : VecDeque α} :
    side.queueReady queue = true ↔ 0 < side.amount queue := by
  cases side with
  | item => cases hq : queue.items <;> simp [queueReady, amount, VecDeque.isEmpty, hq]
  | space => simp [queueReady, amount, Nat.pos_iff_ne_zero]

end Side

theorem Op.Unready.amount (h : op.Unready s.inner) : op.side.amount s.inner.queue = 0 := by
  by_contra hne
  have hready := Side.queueReady_iff.mpr (Nat.pos_of_ne_zero hne)
  rw [h] at hready
  cases hready

/-! ## What is handed over -/

namespace Op

/-- The operation waits on `side`, and takes one when it wakes up. -/
def Takes (side : Side) (op : Op α) : Prop := op.blocks = true ∧ op.side = side

instance (side : Side) (op : Op α) : Decidable (op.Takes side) :=
  inferInstanceAs (Decidable (_ ∧ _))

/-- Under the mutex: about to take one, or about to signal that there is one more. -/
def credit (side : Side) (op : Op α) : OpPc α → ℕ
  | .testQueue _ => if op.Takes side then 1 else 0
  | .readPeers => if op.Takes side then 1 else 0
  | .readDropping => if op.Takes side then 1 else 0
  | .transfer => if op.Takes side then 1 else 0
  | .notify _ => if op.side = side then 0 else 1
  | _ => 0

end Op

namespace Pc

def credit (side : Side) : Pc α → ℕ
  | .op _ op pc => op.credit side pc
  | _ => 0

def takes (side : Side) : Pc α → Bool
  | .op _ op (.testQueue _) => decide (op.Takes side)
  | _ => false

end Pc

/-- Items are handed over on `item_maybe_available`, and free slots on `space_maybe_available`. -/
def handoff (side : Side) : Handoff (Shared α) (Pc α) Side where
  cv := side
  amount s := side.amount s.inner.queue
  credit := Pc.credit side
  takes := Pc.takes side

/-! ## The moves of an operation -/

/-- A push adds an item. -/
theorem item_of_push {item : α} (h : s.pushBack grow t item = some s') :
    Side.item.amount s'.inner.queue = Side.item.amount s.inner.queue + 1 := by
  obtain ⟨queue, hqueue, hinner⟩ := pushBack_inner h
  rw [hinner]
  unfold VecDeque.pushBack at hqueue
  split at hqueue
  · cases hqueue
    simp [Side.amount]
  · obtain ⟨n, -, rfl⟩ := Option.map_eq_some_iff.mp hqueue
    simp [Side.amount]

/-- A push into a deque that does not grow takes a slot. -/
theorem space_of_push {item : α} (h : s.pushBack grow t item = some s')
    (hkeeps : s.inner.queue.remainingCapacity = 0 → grow s.inner.queue.capacity = none) :
    Side.space.amount s'.inner.queue + 1 = Side.space.amount s.inner.queue := by
  obtain ⟨queue, hqueue, hinner⟩ := pushBack_inner h
  rw [hinner]
  unfold VecDeque.pushBack at hqueue
  split at hqueue
  · next hroom =>
    cases hqueue
    unfold VecDeque.remainingCapacity at hroom
    simp only [Side.amount, VecDeque.remainingCapacity, List.length_append,
      List.length_singleton]
    omega
  · next hfull =>
    -- a push into a full deque would have to grow it
    rw [hkeeps (not_not.mp hfull)] at hqueue
    cases hqueue

/-- A pop takes an item, and adds a slot at most. -/
theorem amount_of_pop {item : α} (h : s.popFront t = some (item, s')) :
    Side.item.amount s'.inner.queue + 1 = Side.item.amount s.inner.queue ∧
      Side.space.amount s'.inner.queue ≤ Side.space.amount s.inner.queue + 1 := by
  obtain ⟨queue, hqueue, hinner⟩ := popFront_inner h
  rw [hinner]
  unfold VecDeque.popFront at hqueue
  cases hitems : s.inner.queue.items with
  | nil => simp [hitems] at hqueue
  | cons x xs =>
    simp only [hitems, Option.some.injEq, Prod.mk.injEq] at hqueue
    obtain ⟨-, rfl⟩ := hqueue
    constructor
    · simp [Side.amount, hitems]
    · simp only [Side.amount, VecDeque.remainingCapacity, hitems, List.length_cons]
      omega

/-- A pop that fails has found no item. -/
theorem nothing_of_popFront (h : s.popFront t = none) :
    Side.item.amount s.inner.queue = 0 := by
  by_contra hne
  have hready := Side.queueReady_iff.mpr (Nat.pos_of_ne_zero hne)
  exact popFront_of_ready hready h

theorem credit_le_one (side : Side) (op : Op α) (pc : OpPc α) : op.credit side pc ≤ 1 := by
  unfold Op.credit
  split
  · split <;> simp
  · split <;> simp
  · split <;> simp
  · split <;> simp
  · split <;> simp
  · simp

/-- An operation that takes nothing has credit for its signal only. -/
theorem credit_of_not_takes (h : ¬ op.Takes side) (hpc : ∀ r, pc ≠ .notify r) :
    op.credit side pc = 0 := by
  cases pc with
  | notify r => exact absurd rfl (hpc r)
  | testQueue late => exact if_neg h
  | readPeers => exact if_neg h
  | readDropping => exact if_neg h
  | transfer => exact if_neg h
  | _ => rfl

/-- After its wait an operation that takes one is still about to. -/
theorem credit_resume (h : op.Takes side) : op.credit side op.resume = 1 := by
  cases op with
  | waitForMessageUntil => cases h.1
  | tryReceiveOnce => cases h.1
  | trySendOnce item => cases h.1
  | _ => exact if_pos h

/-- A push takes a slot, and its signal is the credit for the item. -/
theorem push_balance {item : α} (hitem : op.item? = some item)
    (hs : s.pushBack grow t item = some s')
    (hkeeps : side = .space → s.inner.queue.remainingCapacity = 0 →
      grow s.inner.queue.capacity = none) :
    side.amount s'.inner.queue + op.credit side .transfer ≤
      side.amount s.inner.queue + op.credit side (.notify op.success) := by
  cases side with
  | item =>
    have hside := Op.side_of_item hitem
    have htakes : ¬ op.Takes .item := fun h => by cases hside.symm.trans h.2
    have hcredit : op.credit .item (.notify op.success) = 1 := by
      simp [Op.credit, hside]
    rw [item_of_push hs, credit_of_not_takes htakes fun r heq => (by cases heq), hcredit]
  | space =>
    have hslot := space_of_push hs (hkeeps rfl)
    have hcredit := credit_le_one .space op .transfer
    omega

/-- A pop takes an item, and its signal is the credit for the slot. -/
theorem pop_balance {item : α} {r : Ret α} (hr : op.delivery item = some r)
    (hs : s.popFront t = some (item, s')) :
    side.amount s'.inner.queue + op.credit side .transfer ≤
      side.amount s.inner.queue + op.credit side (.notify r) := by
  have hside : op.side = .item := by cases op <;> first | rfl | cases hr
  obtain ⟨hitem, hspace⟩ := amount_of_pop hs
  cases side with
  | item =>
    have hcredit := credit_le_one .item op .transfer
    omega
  | space =>
    have htakes : ¬ op.Takes .space := fun h => by cases hside.symm.trans h.2
    have hcredit : op.credit .space (.notify r) = 1 := by
      simp [Op.credit, hside]
    rw [credit_of_not_takes htakes fun r heq => (by cases heq), hcredit]
    exact hspace

/-- **An operation balances what it does to the queue with its credit**, when it does not give up
what there is for want of peers. -/
theorem op_balance (hm : OpMoves grow t op pc s pc' s')
    (hsignal : ∀ r, pc = .notify r → op.side = side) (hd : s.inner.dropping = false)
    (hkeeps : side = .space → ∀ item, pc = .transfer → op.item? = some item →
      s.inner.queue.remainingCapacity = 0 → grow s.inner.queue.capacity = none)
    (hclaims : pc = .readPeers → op.Takes side → op.side.peers s.inner = 0 → op.Unready s.inner) :
    side.amount s'.inner.queue = 0 ∨
      side.amount s'.inner.queue + op.credit side pc ≤
        side.amount s.inner.queue + op.credit side pc' := by
  have hstill : ∀ {a b : ℕ}, a ≤ b → side.amount s.inner.queue = 0 ∨
      side.amount s.inner.queue + a ≤ side.amount s.inner.queue + b :=
    fun h => Or.inr (Nat.add_le_add_left h _)
  -- whoever takes nothing from this side has no credit to lose
  have hlose : (∀ r, pc ≠ .notify r) → (op.Takes side → side.amount s.inner.queue = 0) → ∀ {b : ℕ},
      side.amount s.inner.queue = 0 ∨
        side.amount s.inner.queue + op.credit side pc ≤ side.amount s.inner.queue + b := by
    intro hpc htakes b
    by_cases h : op.Takes side
    · exact Or.inl (htakes h)
    · rw [credit_of_not_takes h hpc]
      exact hstill (Nat.zero_le _)
  cases hm with
  | begins => exact hstill (Nat.zero_le _)
  | dropped => exact hstill (Nat.zero_le _)
  | locked => exact hstill (Nat.zero_le _)
  | lockedOnce => exact hstill (Nat.zero_le _)
  | retries => exact hstill (Nat.zero_le _)
  | givesUp => exact hstill (Nat.zero_le _)
  -- the operation has woken up, or never slept: it takes one from here on
  | ready =>
    by_cases h : op.Takes side
    · rw [credit_resume h]
      exact hstill (credit_le_one _ _ _)
    · exact hlose (fun r heq => by cases heq) fun htakes => absurd htakes h
  | full hop =>
    subst hop
    exact hlose (fun r heq => by cases heq) fun htakes => by cases htakes.1
  -- it is about to sleep, and there is none to take
  | unready _ hun =>
    exact hlose (fun r heq => by cases heq) fun htakes => htakes.2 ▸ hun.amount
  | lonely hop =>
    subst hop
    exact hlose (fun r heq => by cases heq) fun htakes => by cases htakes.1
  | disconnected => exact hstill (Nat.zero_le _)
  | connected => exact hstill (Nat.zero_le _)
  | released => exact hstill (Nat.zero_le _)
  | sleeps => exact hstill (Nat.zero_le _)
  | expires => exact hstill (Nat.zero_le _)
  -- no peer: this is the branch on which the condition is needed
  | alone _ hzero =>
    refine hlose (fun r heq => by cases heq) fun htakes => ?_
    rw [← htakes.2]
    exact (hclaims rfl htakes hzero).amount
  | accompanied => exact hstill (Nat.le_refl _)
  | readDropped hset =>
    rw [hset] at hd
    cases hd
  | goesOn => exact hstill (Nat.le_refl _)
  | nothing hop =>
    subst hop
    exact hlose (fun r heq => by cases heq) fun htakes => by cases htakes.1
  | push hitem hs =>
    exact Or.inr (push_balance hitem hs fun hside => hkeeps hside _ rfl hitem)
  -- a push fails on a full queue only
  | pushFails hitem hnone =>
    have hfull : Side.space.amount s.inner.queue = 0 := by
      by_contra hne
      have hready := Side.queueReady_iff.mpr (Nat.pos_of_ne_zero hne)
      exact pushBack_of_ready _ hready hnone
    refine hlose (fun r heq => by cases heq) fun htakes => ?_
    rw [← htakes.2, Op.side_of_item hitem]
    exact hfull
  | pop hr hs => exact Or.inr (pop_balance hr hs)
  | popNothing hop hnone =>
    subst hop
    refine hlose (fun r heq => by cases heq) fun htakes => ?_
    rw [← htakes.2]
    exact nothing_of_popFront hnone
  | popFails hop hnone =>
    subst hop
    refine hlose (fun r heq => by cases heq) fun htakes => ?_
    rw [← htakes.2]
    exact nothing_of_popFront hnone
  | popNone hop =>
    subst hop
    exact hlose (fun r heq => by cases heq) fun htakes => by cases htakes.1
  | @notify r =>
    have hcredit : op.credit side (.notify r) = 0 := if_pos (hsignal r rfl)
    rw [hcredit]
    exact hstill (Nat.zero_le _)
  | unlock => exact hstill (Nat.zero_le _)

/-! ## What a thread that falls asleep has found -/

namespace OpPc

/-- The queue was not ready, and the operation has not gone on since. -/
def fallingAsleep : OpPc α → Bool
  | .testPeers _ => true
  | .testDropping _ => true
  | .sleep => true
  | _ => false

theorem holding_of_fallingAsleep (h : pc.fallingAsleep = true) : pc.holding = true := by
  cases pc <;> first | rfl | cases h

end OpPc

theorem Op.resume_not_fallingAsleep (op : Op α) : op.resume.fallingAsleep = false := by
  cases op <;> rfl

theorem op_unready (hm : OpMoves grow t op pc s pc' s') (hblocks : op.blocks = true)
    (hpc : pc.fallingAsleep = true → op.Unready s.inner) (hpc' : pc'.fallingAsleep = true) :
    op.Unready s'.inner := by
  have hresume : op.resume.fallingAsleep ≠ true := by simp [op.resume_not_fallingAsleep]
  cases hm with
  | ready => exact absurd hpc' hresume
  | unready _ hun => exact hun
  | lonely hop =>
    subst hop
    cases hblocks
  | disconnected => exact absurd hpc' hresume
  | connected => exact hpc rfl
  | released => exact absurd hpc' hresume
  | sleeps => exact hpc rfl
  | _ => cases hpc'

/-- A blocking operation that falls asleep has found the queue unready, and it is still so. -/
def unreadyOutline : Outline (Shared α) Tid (Pc α) where
  global _ := True
  running t l s := teardownOutline.running t l s ∧ ∀ h op pc, l = .op h op pc →
    op.blocks = true → pc.fallingAsleep = true → op.Unready s.inner
  asleep := teardownOutline.asleep

theorem Moves.unready (hm : Moves grow t l s l' s') (hl : unreadyOutline.running t l s) :
    ∀ h op pc, l' = .op h op pc → op.blocks = true → pc.fallingAsleep = true →
      op.Unready s'.inner := by
  rintro h op pc' rfl hblocks hpc'
  cases hm with
  | asked ha =>
    -- an operation that begins has not looked at the queue yet
    cases ha
    cases hpc'
  | op hgoes => exact op_unready (opMoves_of_goes hgoes) hblocks (hl.2 h op _ rfl hblocks) hpc'
  | make hmake => cases hmake
  | drop hdrop => cases hdrop

theorem unreadyOutline_valid : (unreadyOutline (α := α)).Valid (program grow) NeverTogether
    fun _ _ s => s.inner.dropping = false where
  own {t l s} _ hl _ :=
    program_establishes (fun l' s' hm => ⟨trivial, hm.teardown hl.1, hm.unready hl⟩)
      fun h op late _ => ⟨h, op, late, rfl⟩
  wake _ hasleep := by
    obtain ⟨h, op, late, rfl⟩ := hasleep
    refine ⟨fun d pc heq => (by cases heq), fun h' op' pc' heq _ hpc => ?_⟩
    cases heq
    cases hpc
  frame {t u l l' k s s'} _ _ hmover hd hgoes hapart hl := by
    have hm := moves_of_goes hgoes
    refine ⟨fun d pc heq htear => hm.dropping_mono (hl.1 d pc heq htear), ?_⟩
    rintro h op pc rfl hblocks hpc
    rcases hm.queue with ⟨h', op', rfl, -⟩ | ⟨d, rfl, -⟩ | hq
    · -- another operation would need the mutex that this one holds
      exact absurd (Or.inl ⟨OpPc.holding_of_fallingAsleep hpc, rfl⟩) hapart
    · -- a teardown would have set `dropping`
      have hset := hmover.1 d _ rfl rfl
      rw [hd] at hset
      cases hset
    · have hun := hl.2 h op pc rfl hblocks hpc
      unfold Op.Unready at hun ⊢
      rw [hq]
      exact hun
  frameAsleep _ _ _ _ _ hasleep := hasleep

/-- Whoever is asleep waits for its own side, and will evaluate its predicate. -/
def Asleep (c : State α) : Prop :=
  ∀ t cv next late, c.threads t = .blocked cv next late →
    ∃ h op, next = .op h op (.testQueue false) ∧ op.waits = true ∧ op.side = cv

theorem Asleep.step (h : Asleep c) (hstep : Step (program grow) c i c') : Asleep c' := by
  intro t cv next late ht
  rcases hstep.asleep ht with ⟨-, ht₀⟩ | ⟨rfl, l, -, hwait⟩
  · exact h t cv next late ht₀
  · obtain ⟨k, op, pc, rfl, rfl, rfl⟩ := program_wait hwait
    refine ⟨k, op, ?_⟩
    cases op <;> cases hwait <;> exact ⟨rfl, rfl, rfl⟩

/-! ## The conditions -/

/-- Another thread has been notified on the condition variable, inside an operation that waits for
`side`, and has not evaluated its predicate again. -/
def Notified (side : Side) (c : State α) (t : Tid) : Prop :=
  ¬ c.Registered side t ∧ ∃ h op pc late, c.threads t = .blocked side (.op h op pc) late ∧
    op.side = side

/-- Nothing is left lying: while the mutex is free and the queue is ready for somebody who is
registered inside a blocking operation, another thread has been notified. -/
def Unstranded (side : Side) (c : State α) : Prop :=
  c.owner = none → side.queueReady c.shared.inner.queue = true → ∀ t, Stranded side c t →
    ∃ u, u ≠ t ∧ Notified side c u

/-- The signal goes to an operation that takes one, unless no such operation is registered. -/
def SignalsTaker (side : Side) (c : State α) (i : Event α) : Prop :=
  ∀ t u, i = .notify t u → c.Registered side u → Stranded side c u ∨ ∀ w, ¬ Stranded side c w

/-- An operation that takes one gives up for want of peers only when there is none to take. -/
def Claims (side : Side) (_ : Tid) : Pc α → Shared α → Prop
  | .op _ op .readPeers, s => op.Takes side → op.side.peers s.inner = 0 → op.Unready s.inner
  | _, _ => True

instance (side : Side) (t : Tid) (l : Pc α) (s : Shared α) : Decidable (Claims side t l s) :=
  decidable_of_iff
    ((match l with
      | .op _ op .readPeers =>
          decide (op.Takes side → op.side.peers s.inner = 0 → op.Unready s.inner)
      | _ => true) = true)
    (by
      unfold Claims
      split
      · exact decide_eq_true_iff
      · simp)

/-- While an operation that waits for `side` is under way, a value of `side` is alive where it was
made. -/
def Accompanied (side : Side) (_ : Tid) : Pc α → Shared α → Prop
  | .op _ op _, s => op.side = side → s.alive side ≠ 0
  | _, _ => True

instance (side : Side) (t : Tid) (l : Pc α) (s : Shared α) : Decidable (Accompanied side t l s) :=
  decidable_of_iff
    ((match l with
      | .op _ op _ => decide (op.side = side → s.alive side ≠ 0)
      | _ => true) = true)
    (by
      unfold Accompanied
      split
      · exact decide_eq_true_iff
      · simp)

/-- Where the counters count, whoever is accompanied finds a peer. -/
theorem claims_of_accompanied (hcounts : PeerCounts c) (hd : c.shared.inner.dropping = false)
    (h : Guarded (Accompanied side) c i) : Guarded (Claims side) c i := by
  intro l ht
  have hl := h l ht
  unfold Claims
  split
  · intro htakes hzero
    rw [htakes.2, hcounts hd side] at hzero
    exact absurd hzero (hl htakes.2)
  · trivial

/-! ## One step -/

theorem Pc.credit_le_one (side : Side) (l : Pc α) : l.credit side ≤ 1 := by
  cases l with
  | op h op pc => exact ShmemUtils.Channel.credit_le_one side op pc
  | _ => exact Nat.zero_le 1

/-- An operation that moves on without a signal to `side` is not about to make one. -/
theorem side_of_notify {r : Ret α} (hgoes : (op.action grow t (.notify r)).Goes s pc' s')
    (hsignal : ∀ next, op.action grow t (.notify r) ≠ .signal side next) : op.side = side := by
  cases op with
  | waitForMessageUntil => exact hgoes.elim
  | _ =>
    cases side with
    | item => first | rfl | exact absurd rfl (hsignal _)
    | space => first | rfl | exact absurd rfl (hsignal _)

/-- The deque does not grow here: a push onto a full one would fail. -/
def KeepsCapacity (grow : ℕ → Option ℕ) (_ : Tid) (l : Pc α) (s : Shared α) : Prop :=
  ∀ h op item, l = .op h op .transfer → op.item? = some item →
    s.inner.queue.remainingCapacity = 0 → grow s.inner.queue.capacity = none

/-- A deque that never grows keeps its capacity. -/
theorem keepsCapacity_none : KeepsCapacity (fun _ => none) t l s := fun _ _ _ _ _ _ => rfl

/-- **The program balances the queue with the credit**, where nobody tears the channel down, and the
deque does not grow while somebody waits for space. -/
theorem handoff_balanced :
    (handoff (α := α) side).Balanced (program grow) Pc.holding fun t l s =>
      unreadyOutline.running t l s ∧ s.inner.dropping = false ∧ Claims side t l s ∧
        (side = .space → KeepsCapacity grow t l s) where
  free {l} hl := by
    cases l with
    | op h op pc =>
      cases pc with
      | start => rfl
      | lock => rfl
      | ret r => rfl
      | _ => cases hl
    | _ => rfl
  wakes {l} hl := by
    simp only [handoff, Pc.takes] at hl
    split at hl
    · have htakes := of_decide_eq_true hl
      exact Nat.le_of_eq (if_pos htakes).symm
    · cases hl
  move {t l s l' s'} hok hgoes hsignal := by
    obtain ⟨hl, hd, hclaims, hkeeps⟩ := hok
    have hm := moves_of_goes hgoes
    by_cases hop : ∃ h op pc, l = .op h op pc ∧ ∀ r, pc ≠ .ret r
    · obtain ⟨h, op, pc, rfl, hpc⟩ := hop
      cases hm with
      | op hgoes' =>
        refine op_balance (opMoves_of_goes hgoes') ?_ hd ?_ ?_
        · rintro r rfl
          refine side_of_notify hgoes' fun next heq => hsignal (.op h op next) ?_
          rw [program_op hpc, heq]
          rfl
        · rintro hside item rfl hitem
          exact hkeeps hside h op item rfl hitem
        · rintro rfl
          exact hclaims
      | ret => exact absurd rfl (hpc _)
    · -- no other step moves an item
      have hzero : l.credit side = 0 := by
        cases l with
        | op h op pc =>
          cases pc with
          | ret r => rfl
          | _ => exact absurd ⟨_, _, _, rfl, fun r heq => (by cases heq)⟩ hop
        | _ => rfl
      rcases hm.queue with ⟨h, op, rfl, -⟩ | ⟨d, rfl, -⟩ | hq
      · exact absurd ⟨_, _, _, rfl, fun r heq => (by cases heq)⟩ hop
      · have hset := hl.1 d _ rfl rfl
        rw [hd] at hset
        cases hset
      · right
        show side.amount s'.inner.queue + l.credit side ≤ _
        rw [hzero, hq]
        exact Nat.le_add_right _ _
  signal {t l next} _ := Nat.le_trans (Pc.credit_le_one side l) (Nat.le_add_left _ _)
  wait {t l s cv next late} hok hwait := by
    obtain ⟨k, op, pc, rfl, -, rfl⟩ := program_wait hwait
    refine ⟨rfl, fun _ htakes => ?_⟩
    simp only [handoff, Pc.takes] at htakes
    split at htakes
    · next heq =>
      cases heq
      have ht := of_decide_eq_true htakes
      have hun := hok.1.2 k op .sleep rfl ht.1 rfl
      show side.amount s.inner.queue = 0
      rw [← ht.2]
      exact hun.amount
    · cases htakes

/-- What a run keeps in which signals reach those who take. -/
structure Handed (side : Side) (c : State α) : Prop where
  sound : Sound c
  unready : unreadyOutline.Holds c
  asleep : Asleep c
  covered : (handoff side).Covered c

theorem Asleep.waiting_iff (h : Asleep c) : (handoff side).Waiting c t ↔ Stranded side c t := by
  constructor
  · rintro ⟨hreg, next, late, hb, htakes⟩
    obtain ⟨k, op, rfl, -, -⟩ := h t _ next late hb
    have ht : op.Takes side := of_decide_eq_true htakes
    exact ⟨hreg, k, op, _, late, hb, ht.1⟩
  · rintro ⟨hreg, k, op, pc, late, hb, hblocks⟩
    obtain ⟨k', op', heq, -, hside⟩ := h t side _ late hb
    cases heq
    exact ⟨hreg, _, late, hb, decide_eq_true ⟨hblocks, hside⟩⟩

/-- A thread that has been notified and is about to take one has been notified. -/
theorem Asleep.notified (h : Asleep c) (ht : (handoff side).Summoned c t) : Notified side c t := by
  obtain ⟨hnot, next, late, hb, -⟩ := ht
  obtain ⟨k, op, rfl, -, hside⟩ := h t _ next late hb
  exact ⟨hnot, k, op, _, late, hb, hside⟩

theorem Handed.unstranded (h : Handed side c) : Unstranded side c := by
  intro hfree hready t ht
  obtain ⟨u, hne, hu⟩ := h.covered.exists_summoned hfree (Side.queueReady_iff.mp hready)
    (h.asleep.waiting_iff.mpr ht)
  exact ⟨u, hne, h.asleep.notified hu⟩

theorem Handed.step (h : Handed side c) (hd : c.shared.inner.dropping = false)
    (hclaims : Guarded (Claims side) c i)
    (hkeeps : side = .space → Guarded (KeepsCapacity grow) c i) (hsignals : SignalsTaker side c i)
    (hstep : Step (program grow) c i c') : Handed side c' := by
  have hsound := h.sound.step hstep
  refine ⟨hsound, h.unready.step unreadyOutline_valid h.sound.apart (fun _ _ => hd) hstep,
    h.asleep.step hstep, ?_⟩
  refine h.covered.step handoff_balanced h.sound.exclusive hsound.exclusive hstep
    (fun l hl => ⟨h.unready.running hl, hd, hclaims l hl, fun hside => hkeeps hside l hl⟩) ?_
  intro t u hi hreg
  refine (hsignals t u hi hreg).imp h.asleep.waiting_iff.mpr fun hnone w hw => ?_
  exact hnone w (h.asleep.waiting_iff.mp hw)

theorem handed_initial (side : Side) (capacity : ℕ) :
    Handed side (initial (α := α) capacity) where
  sound := sound_initial capacity
  unready :=
    ⟨trivial, fun t => ⟨fun d pc heq => (by cases heq), fun h op pc heq => (by cases heq)⟩⟩
  asleep t cv next late ht := by cases ht
  covered t ht := by cases ht.1

/-- Only sends wait for space, and all of them take a slot. -/
theorem signalsTaker_space (h : Handed .space c) : SignalsTaker .space c i := by
  intro t u _ hreg
  left
  cases hu : c.threads u with
  | running l => exact absurd hreg ((h.sound.exclusive.of_running hu).2 .space)
  | woken next => exact absurd hreg ((h.sound.exclusive.of_woken hu).2.2 .space)
  | blocked cv next late =>
    cases (h.sound.exclusive.of_blocked hu).2.2 .space hreg
    obtain ⟨k, op, rfl, hwaits, hside⟩ := h.asleep u _ next late hu
    refine ⟨hreg, k, op, _, late, hu, ?_⟩
    cases op with
    | trySend item => rfl
    | trySendUntil item => rfl
    | trySendOnce item => cases hwaits
    | _ => cases hside

/-! ## Runs -/

theorem throughout_claims (hrun : Run (Step (program grow)) (initial capacity) tr c)
    (hd : Everywhere (fun c => c.shared.inner.dropping = false) tr c)
    (haccompanied : Throughout (Guarded (Accompanied side)) tr) (hown : Throughout DropsOwn tr) :
    Throughout (Guarded (Claims side)) tr := by
  have hcounts := (everywhere_peerCounts hrun).mpr hown
  exact fun x hx => claims_of_accompanied (hcounts.2 x hx) (hd.2 x hx) (haccompanied x hx)

/-- **No message is left lying while a receiver waits for one**, in every run without a teardown
whose signals go to those who take an item, and in which nobody gives up on an item for want of
senders. With a sender alive nobody does, as long as the drops take out values of their own. -/
theorem unstranded_item (hrun : Run (Step (program grow)) (initial capacity) tr c)
    (hd : Everywhere (fun c => c.shared.inner.dropping = false) tr c) :
    (Throughout (SignalsTaker .item) tr → Throughout (Guarded (Claims .item)) tr →
      Everywhere (Unstranded .item) tr c) ∧
    (Throughout (Guarded (Accompanied .item)) tr → Throughout DropsOwn tr →
      Throughout (Guarded (Claims .item)) tr) := by
  refine ⟨fun hsignals hclaims => ?_, throughout_claims hrun hd⟩
  have hok : Throughout (fun c i => c.shared.inner.dropping = false ∧ Guarded (Claims .item) c i ∧
      SignalsTaker .item c i) tr := fun x hx => ⟨hd.2 x hx, hclaims x hx, hsignals x hx⟩
  have hhanded : Everywhere (Handed .item) tr c := by
    refine hrun.everywhere (handed_initial .item capacity) ?_ hok
    rintro c i c' h ⟨hset, hi, htaker⟩ hstep
    exact h.step hset hi (fun heq => by cases heq) htaker hstep
  exact ⟨hhanded.1.unstranded, fun x hx => (hhanded.2 x hx).unstranded⟩

/-- A condition that can be evaluated: the signal goes to a blocking operation. -/
def wakesBlocking (c : State α) : Event α → Bool
  | .notify _ u =>
    match c.threads u with
    | .blocked _ (.op _ op _) _ => op.blocks
    | _ => false
  | _ => true

theorem signalsTaker_of_wakesBlocking (h : Sound c) (hi : wakesBlocking c i = true) :
    SignalsTaker side c i := by
  rintro t u rfl hreg
  left
  simp only [wakesBlocking] at hi
  split at hi
  · next cv k op pc late hu =>
    cases (h.exclusive.of_blocked hu).2.2 side hreg
    exact ⟨hreg, k, op, pc, late, hu, hi⟩
  · cases hi

/-- Two receivers wait, and a message has been sent that one of them has been notified of. -/
theorem unstranded_item_receive : ∃ tr, ∃ c : State ℕ,
    Run (Step (program fun _ => none)) (initial 2) tr c ∧ Everywhere (Unstranded .item) tr c ∧
      c.owner = none ∧ c.shared.inner.queue.items = [7] ∧ c.waiters .item = [⟨0, 2⟩] := by
  obtain ⟨tr, c, hrun, hok, htest⟩ := exists_run_of_exec (program fun _ => none)
    (fun c i => decide (c.shared.inner.dropping = false ∧ wakesBlocking c i = true ∧
      Guarded (Accompanied .item) c i ∧ DropsOwn c i)) (initial (α := ℕ) 2)
    (making ⟨0, 0⟩ 0 .sender ++ making ⟨0, 0⟩ 0 .receiver ++ calling ⟨0, 1⟩ 2 .receive 6 ++
      calling ⟨0, 2⟩ 2 .receive 6 ++ calling ⟨0, 0⟩ 1 (.trySend 7) 6 ++
      .notify ⟨0, 0⟩ ⟨0, 1⟩ :: runs ⟨0, 0⟩ 2)
    (fun c => c.shared.inner.dropping = false ∧ c.owner = none ∧
      c.shared.inner.queue.items = [7] ∧ c.waiters .item = [⟨0, 2⟩]) (by decide)
  obtain ⟨hset, hlast⟩ := of_decide_eq_true htest
  have hmet := fun x hx => of_decide_eq_true (hok x hx)
  have hd : Everywhere (fun c => c.shared.inner.dropping = false) tr c :=
    ⟨hset, fun x hx => (hmet x hx).1⟩
  obtain ⟨hitem, hclaims⟩ := unstranded_item hrun hd
  refine ⟨tr, c, hrun, hitem (fun x hx => ?_) (hclaims (fun x hx => ?_) fun x hx => ?_), hlast⟩
  · exact signalsTaker_of_wakesBlocking ((owned_of_run hrun).2 x hx).sound (hmet x hx).2.1
  · exact (hmet x hx).2.2.1
  · exact (hmet x hx).2.2.2

/-- A signal goes to `wait_for_message_until`, which returns, while a receive goes on sleeping
beside the message. -/
theorem receive_sleeps_beside_message : ¬ ∀ tr (c : State ℕ),
    Run (Step (program fun _ => none)) (initial 2) tr c →
      Everywhere (fun c => c.shared.inner.dropping = false) tr c →
        Throughout (Guarded (Accompanied .item)) tr → Unstranded .item c := by
  intro h
  obtain ⟨tr, c, hrun, hok, htest⟩ := exists_run_of_exec (program fun _ => none)
    (fun c i => decide (c.shared.inner.dropping = false ∧ Guarded (Accompanied .item) c i ∧
      i.mover ∈ [⟨0, 0⟩, ⟨0, 1⟩, ⟨0, 2⟩])) (initial (α := ℕ) 2)
    (making ⟨0, 0⟩ 0 .sender ++ making ⟨0, 0⟩ 0 .receiver ++ calling ⟨0, 1⟩ 2 .receive 6 ++
      calling ⟨0, 2⟩ 2 .waitForMessageUntil 5 ++ calling ⟨0, 0⟩ 1 (.trySend 7) 6 ++
      .notify ⟨0, 0⟩ ⟨0, 2⟩ :: runs ⟨0, 0⟩ 2 ++ runs ⟨0, 2⟩ 4)
    (fun c => c.shared.inner.dropping = false ∧ c.owner = none ∧
      Side.item.queueReady c.shared.inner.queue = true ∧ ⟨0, 1⟩ ∈ c.waiters .item ∧
      c.threads ⟨0, 0⟩ = .running .idle ∧ c.threads ⟨0, 2⟩ = .running .idle ∧
      c.threads ⟨0, 1⟩ = .blocked .item (.op 2 .receive (.testQueue false)) none) (by decide)
  obtain ⟨hset, hfree, hready, hreg, h₀, h₂, h₁⟩ := of_decide_eq_true htest
  have hmet := fun x hx => of_decide_eq_true (hok x hx)
  obtain ⟨u, hne, -, k, op, pc, late, hu, -⟩ := h tr c hrun ⟨hset, fun x hx => (hmet x hx).1⟩
    (fun x hx => (hmet x hx).2.1) hfree hready ⟨0, 1⟩ ⟨hreg, 2, .receive, _, _, h₁, rfl⟩
  rcases threads_of_movers hrun (fun x hx => (hmet x hx).2.2) u with hmoved | hunmoved
  · simp only [List.mem_cons, List.not_mem_nil, or_false] at hmoved
    rcases hmoved with rfl | rfl | rfl
    · cases h₀.symm.trans hu
    · exact hne rfl
    · cases h₂.symm.trans hu
  · -- no other thread has moved
    cases hunmoved.symm.trans hu

/-- **No slot is left lying while a send waits for one**, in every run without a teardown in which
nobody gives up on a slot for want of receivers. With a receiver alive nobody does, as long as the
drops take out values of their own. -/
theorem unstranded_space (hrun : Run (Step (program fun _ => none)) (initial capacity) tr c)
    (hd : Everywhere (fun c => c.shared.inner.dropping = false) tr c) :
    (Throughout (Guarded (Claims .space)) tr → Everywhere (Unstranded .space) tr c) ∧
    (Throughout (Guarded (Accompanied .space)) tr → Throughout DropsOwn tr →
      Throughout (Guarded (Claims .space)) tr) := by
  refine ⟨fun hclaims => ?_, throughout_claims hrun hd⟩
  have hok : Throughout (fun c i => c.shared.inner.dropping = false ∧
      Guarded (Claims .space) c i) tr := fun x hx => ⟨hd.2 x hx, hclaims x hx⟩
  have hhanded : Everywhere (Handed .space) tr c := by
    refine hrun.everywhere (handed_initial .space capacity) ?_ hok
    rintro c i c' h ⟨hset, hi⟩ hstep
    exact h.step hset hi (fun _ _ _ => keepsCapacity_none) (signalsTaker_space h) hstep
  exact ⟨hhanded.1.unstranded, fun x hx => (hhanded.2 x hx).unstranded⟩

/-- Two sends wait, and a message has been taken that one of them has been notified of. -/
theorem unstranded_space_send : ∃ tr, ∃ c : State ℕ,
    Run (Step (program fun _ => none)) (initial 1) tr c ∧ Everywhere (Unstranded .space) tr c ∧
      c.owner = none ∧ c.shared.inner.queue.items = [] ∧ c.waiters .space = [⟨0, 2⟩] := by
  obtain ⟨tr, c, hrun, hok, htest⟩ := exists_run_of_exec (program fun _ => none)
    (fun c i => decide (c.shared.inner.dropping = false ∧ Guarded (Accompanied .space) c i ∧
      DropsOwn c i)) (initial (α := ℕ) 1)
    (making ⟨0, 0⟩ 0 .sender ++ making ⟨0, 0⟩ 0 .receiver ++ calling ⟨0, 0⟩ 1 (.trySend 7) 9 ++
      calling ⟨0, 1⟩ 1 (.trySend 8) 6 ++ calling ⟨0, 2⟩ 1 (.trySendUntil 9) 6 ++
      calling ⟨0, 0⟩ 2 .tryReceiveOnce 3 ++ .notify ⟨0, 0⟩ ⟨0, 1⟩ :: runs ⟨0, 0⟩ 2)
    (fun c => c.shared.inner.dropping = false ∧ c.owner = none ∧
      c.shared.inner.queue.items = [] ∧ c.waiters .space = [⟨0, 2⟩]) (by decide)
  obtain ⟨hset, hlast⟩ := of_decide_eq_true htest
  have hmet := fun x hx => of_decide_eq_true (hok x hx)
  have hd : Everywhere (fun c => c.shared.inner.dropping = false) tr c :=
    ⟨hset, fun x hx => (hmet x hx).1⟩
  obtain ⟨hspace, hclaims⟩ := unstranded_space hrun hd
  refine ⟨tr, c, hrun, hspace (hclaims (fun x hx => ?_) fun x hx => ?_), hlast⟩
  · exact (hmet x hx).2.1
  · exact (hmet x hx).2.2

/-- The parent's receiver is alive, but a child has dropped its copy of it: the send that was
notified gives up, and the other one goes on sleeping beside the slot. -/
theorem send_sleeps_beside_slot : ¬ ∀ tr (c : State ℕ),
    Run (Step (program fun _ => none)) (initial 1) tr c →
      Everywhere (fun c => c.shared.inner.dropping = false) tr c →
        Throughout (Guarded (Accompanied .space)) tr → Unstranded .space c := by
  intro h
  obtain ⟨tr, c, hrun, hok, htest⟩ := exists_run_of_exec (program fun _ => none)
    (fun c i => decide (c.shared.inner.dropping = false ∧ Guarded (Accompanied .space) c i ∧
      i.mover ∈ [⟨0, 0⟩, ⟨0, 1⟩, ⟨0, 2⟩, ⟨1, 0⟩]))
    (initial (α := ℕ) 1)
    (making ⟨0, 0⟩ 0 .sender ++ making ⟨0, 0⟩ 0 .receiver ++ [.ask ⟨0, 0⟩ .fork] ++
      calling ⟨0, 0⟩ 1 (.trySend 7) 9 ++ calling ⟨0, 1⟩ 1 (.trySend 8) 6 ++
      calling ⟨0, 2⟩ 1 (.trySend 9) 6 ++ calling ⟨0, 0⟩ 2 .tryReceiveOnce 3 ++
      .notify ⟨0, 0⟩ ⟨0, 1⟩ :: runs ⟨0, 0⟩ 2 ++ dropping ⟨1, 0⟩ 5 0 ++ runs ⟨0, 1⟩ 5)
    (fun c => c.shared.inner.dropping = false ∧ c.owner = none ∧
      Side.space.queueReady c.shared.inner.queue = true ∧ ⟨0, 2⟩ ∈ c.waiters .space ∧
      c.threads ⟨0, 0⟩ = .running .idle ∧ c.threads ⟨0, 1⟩ = .running .idle ∧
      c.threads ⟨1, 0⟩ = .running (.drop ⟨5, 0⟩ (.broadcast .space true)) ∧
      c.threads ⟨0, 2⟩ = .blocked .space (.op 1 (.trySend 9) (.testQueue false)) none) (by decide)
  obtain ⟨hset, hfree, hready, hreg, h₀, h₁, h₃, h₂⟩ := of_decide_eq_true htest
  have hmet := fun x hx => of_decide_eq_true (hok x hx)
  obtain ⟨u, hne, -, k, op, pc, late, hu, -⟩ := h tr c hrun ⟨hset, fun x hx => (hmet x hx).1⟩
    (fun x hx => (hmet x hx).2.1) hfree hready ⟨0, 2⟩ ⟨hreg, 1, .trySend 9, _, _, h₂, rfl⟩
  rcases threads_of_movers hrun (fun x hx => (hmet x hx).2.2) u with hmoved | hunmoved
  · simp only [List.mem_cons, List.not_mem_nil, or_false] at hmoved
    rcases hmoved with rfl | rfl | rfl | rfl
    · cases h₀.symm.trans hu
    · cases h₁.symm.trans hu
    · exact hne rfl
    · cases h₃.symm.trans hu
  · -- no other thread has moved
    cases hunmoved.symm.trans hu

end ShmemUtils.Channel
