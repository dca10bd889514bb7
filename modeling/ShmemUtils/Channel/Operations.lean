import ShmemUtils.Channel.Moves

/-!
# What one step of an operation can do

The seven operations have the same shape: a look at `dropping`, the lock, a wait, the second reads,
the transfer, the signal and the unlock. They differ in what they wait for and in what they return.
`OpMoves` lists their steps once, with the conditions under which each is taken.
-/

namespace ShmemUtils.Channel

open ShmemUtils.Library.Monitor

variable {α : Type} {grow : ℕ → Option ℕ} {t : Tid} {s s' : Shared α}

/-! ## What the operations differ in -/

namespace Op

/-- The condition variable that the operation waits on. -/
def side : Op α → Side
  | .receive => .item
  | .tryReceiveUntil => .item
  | .tryReceiveOnce => .item
  | .waitForMessageUntil => .item
  | .trySend _ => .space
  | .trySendUntil _ => .space
  | .trySendOnce _ => .space

/-- The queue is not ready for the operation: empty for a receive, full for a send. -/
def Unready (op : Op α) (inner : Inner α) : Prop := op.side.queueReady inner.queue = false

instance (op : Op α) (inner : Inner α) : Decidable (op.Unready inner) :=
  inferInstanceAs (Decidable (_ = _))

/-- The operations that wait for an item, or for space, as long as there are peers. -/
def blocks : Op α → Bool
  | .receive => true
  | .tryReceiveUntil => true
  | .trySend _ => true
  | .trySendUntil _ => true
  | _ => false

/-- The operations that wait at all. -/
def waits (op : Op α) : Bool :=
  match op with
  | .waitForMessageUntil => true
  | op => op.blocks

/-- The operations that read the counter and `dropping` again between their wait and the item. -/
def rereads : Op α → Bool
  | .tryReceiveUntil => true
  | .trySend _ => true
  | .trySendUntil _ => true
  | _ => false

/-- The operations that take an item. -/
def receives : Op α → Bool
  | .receive => true
  | .tryReceiveUntil => true
  | .tryReceiveOnce => true
  | _ => false

/-- What a receive returns when it has taken an item. -/
def delivery (item : α) : Op α → Option (Ret α)
  | .receive => some (.receive (some item))
  | .tryReceiveUntil => some (.tryReceive (.ok item))
  | .tryReceiveOnce => some (.tryReceive (.ok item))
  | _ => none

/-- What a send returns when it has pushed its item. -/
def success : Op α → Ret α
  | .trySend _ => .send (.ok ())
  | _ => .trySend (.ok ())

/-- What is returned when the channel is being dropped, or nobody is left on the other side. -/
def dropped : Op α → Ret α
  | .receive => .receive none
  | .waitForMessageUntil => .waitForMessage (.error .queueDropped)
  | .trySend item => .send (.error item)
  | .trySendUntil item => .trySend (.error (.noReceivers item))
  | .trySendOnce item => .trySend (.error (.noReceivers item))
  | _ => .tryReceive (.error .noSenders)

/-- What the operations with a deadline return after it. -/
def expired : Op α → Option (Ret α)
  | .tryReceiveUntil => some (.tryReceive (.error .timedOut))
  | .tryReceiveOnce => some (.tryReceive (.error .timedOut))
  | .waitForMessageUntil => some (.waitForMessage (.error .timeoutReached))
  | .trySendUntil item => some (.trySend (.error (.timedOut item)))
  | .trySendOnce item => some (.trySend (.error (.timedOut item)))
  | _ => none

/-- Where the operation goes on after its wait. -/
def resume : Op α → OpPc α
  | .receive => .transfer
  | .waitForMessageUntil => .unlock (.waitForMessage (.ok ()))
  | _ => .readPeers

theorem exists_item {op : Op α} (h : op.kind = .sender) : ∃ item, op.item? = some item := by
  cases op <;> first | exact ⟨_, rfl⟩ | cases h

theorem side_of_item {op : Op α} {item : α} (h : op.item? = some item) : op.side = .space := by
  cases op <;> first | rfl | cases h

theorem side_of_receives {op : Op α} (h : op.receives = true) : op.side = .item := by
  cases op <;> first | rfl | cases h

theorem dropped_ne_panicked (op : Op α) : op.dropped ≠ .panicked := by
  cases op <;> simp [dropped]

theorem success_ne_panicked (op : Op α) : op.success ≠ .panicked := by
  cases op <;> simp [success]

theorem expired_ne_panicked {op : Op α} {r : Ret α} (h : op.expired = some r) : r ≠ .panicked := by
  cases op <;> cases h <;> simp

theorem delivery_ne_panicked {op : Op α} {item : α} {r : Ret α} (h : op.delivery item = some r) :
    r ≠ .panicked := by
  cases op <;> cases h <;> simp

theorem item?_of_receives {op : Op α} (h : op.receives = true) : op.item? = none := by
  cases op <;> first | rfl | cases h

theorem eq_waitForMessage (op : Op α) (hop : op.waits = true) (hblocks : ¬ op.blocks = true) :
    op = .waitForMessageUntil := by
  cases op <;> first | rfl | exact absurd hop hblocks

end Op

namespace OpPc

/-- The result, once it has been decided. -/
def result? : OpPc α → Option (Ret α)
  | .notify r => some r
  | .unlock r => some r
  | .ret r => some r
  | _ => none

end OpPc

/-! ## The moves of an operation -/

/-- A move of an operation of thread `t` from a point and data to a point and data. -/
inductive OpMoves (grow : ℕ → Option ℕ) (t : Tid) (op : Op α) :
    OpPc α → Shared α → OpPc α → Shared α → Prop where
  | begins {s : Shared α} : s.inner.dropping = false → OpMoves grow t op .start s .lock s
  | dropped {s : Shared α} : s.inner.dropping = true →
      OpMoves grow t op .start s (.ret op.dropped) s
  | locked {s : Shared α} : op ≠ .tryReceiveOnce →
      OpMoves grow t op .lock s (.testQueue false) s
  | lockedOnce {s : Shared α} : op = .tryReceiveOnce → OpMoves grow t op .lock s .transfer s
  -- the lock attempt has run out of time, or has failed
  | retries {s : Shared α} : op.expired = none → OpMoves grow t op .lock s .start s
  | givesUp {r : Ret α} {s : Shared α} : op.expired = some r →
      OpMoves grow t op .lock s (.ret r) s
  -- the predicate of a wait: the queue, the counter of the other side, `dropping`
  | ready {late : Bool} {s : Shared α} : op ≠ .tryReceiveOnce → ¬ op.Unready s.inner →
      OpMoves grow t op (.testQueue late) s op.resume s
  | full {item : α} {late : Bool} {s : Shared α} : op = .trySendOnce item → op.Unready s.inner →
      OpMoves grow t op (.testQueue late) s (.unlock (.trySend (.error (.timedOut item)))) s
  | unready {late : Bool} {s : Shared α} : op.blocks = true → op.Unready s.inner →
      OpMoves grow t op (.testQueue late) s (.testPeers late) s
  | lonely {late : Bool} {s : Shared α} : op = .waitForMessageUntil → op.Unready s.inner →
      OpMoves grow t op (.testQueue late) s (.testDropping late) s
  | disconnected {late : Bool} {s : Shared α} : op.waits = true → op.side.peers s.inner = 0 →
      OpMoves grow t op (.testPeers late) s op.resume s
  | connected {late : Bool} {s : Shared α} : op.waits = true → op.side.peers s.inner ≠ 0 →
      OpMoves grow t op (.testPeers late) s (.testDropping late) s
  | released {late : Bool} {s : Shared α} : op.waits = true → s.inner.dropping = true →
      OpMoves grow t op (.testDropping late) s op.resume s
  | sleeps {late : Bool} {s : Shared α} : op.waits = true → s.inner.dropping = false →
      OpMoves grow t op (.testDropping late) s .sleep s
  -- the wait has timed out, and its predicate is false once more
  | expires {r : Ret α} {s : Shared α} : op.waits = true → op.expired = some r →
      s.inner.dropping = false →
      OpMoves grow t op (.testDropping true) s (.unlock r) s
  -- after the wait both are read again
  | alone {s : Shared α} : op ≠ .receive → op.side.peers s.inner = 0 →
      OpMoves grow t op .readPeers s (.unlock op.dropped) s
  | accompanied {s : Shared α} : op.side.peers s.inner ≠ 0 →
      OpMoves grow t op .readPeers s .readDropping s
  | readDropped {s : Shared α} : s.inner.dropping = true →
      OpMoves grow t op .readDropping s (.unlock op.dropped) s
  | goesOn {s : Shared α} : op ≠ .tryReceiveOnce → s.inner.dropping = false →
      OpMoves grow t op .readDropping s .transfer s
  | nothing {s : Shared α} : op = .tryReceiveOnce → s.inner.dropping = false →
      OpMoves grow t op .readDropping s (.unlock (.tryReceive (.error .timedOut))) s
  | push {item : α} {s s' : Shared α} : op.item? = some item →
      s.pushBack grow t item = some s' → OpMoves grow t op .transfer s (.notify op.success) s'
  -- the deque cannot grow, and the program panics
  | pushFails {item : α} {s : Shared α} : op.item? = some item → s.pushBack grow t item = none →
      OpMoves grow t op .transfer s (.unlock .panicked) s
  | pop {item : α} {r : Ret α} {s s' : Shared α} : op.delivery item = some r →
      s.popFront t = some (item, s') → OpMoves grow t op .transfer s (.notify r) s'
  | popNothing {s : Shared α} : op = .receive → s.popFront t = none →
      OpMoves grow t op .transfer s (.unlock (.receive none)) s
  -- `expect` on an empty queue
  | popFails {s : Shared α} : op = .tryReceiveUntil → s.popFront t = none →
      OpMoves grow t op .transfer s (.unlock .panicked) s
  | popNone {s : Shared α} : op = .tryReceiveOnce → s.popFront t = none →
      OpMoves grow t op .transfer s .readPeers s
  | notify {r : Ret α} {s : Shared α} : OpMoves grow t op (.notify r) s (.unlock r) s
  | unlock {r : Ret α} {s : Shared α} : OpMoves grow t op (.unlock r) s (.ret r) s

/-! ## The moves come from the program -/

section Inversion

variable {op : Op α} {pc pc' : OpPc α} {late : Bool} {r : Ret α}

theorem action_start (grow : ℕ → Option ℕ) (t : Tid) (op : Op α) :
    op.action grow t .start =
      read fun inner => if inner.dropping then .ret op.dropped else .lock := by
  cases op <;> rfl

theorem moves_of_start (h : (op.action grow t .start).Goes s pc' s') :
    OpMoves grow t op .start s pc' s' := by
  rw [action_start] at h
  obtain ⟨rfl, rfl⟩ := goes_read.mp h
  split
  · next hd => exact .dropped hd
  · next hd => exact .begins (by simpa using hd)

theorem moves_of_lock (h : (op.action grow t .lock).Goes s pc' s') :
    OpMoves grow t op .lock s pc' s' := by
  cases op with
  | receive =>
    obtain ⟨rfl, rfl | rfl⟩ := h
    · exact .locked (by simp)
    · exact .retries rfl
  | trySend item =>
    obtain ⟨rfl, rfl | rfl⟩ := h
    · exact .locked (by simp)
    · exact .retries rfl
  | tryReceiveOnce =>
    obtain ⟨rfl, rfl | rfl⟩ := h
    · exact .lockedOnce rfl
    · exact .givesUp rfl
  | _ =>
    obtain ⟨rfl, rfl | rfl⟩ := h
    · exact .locked (by simp)
    · exact .givesUp rfl

/-- A wait's predicate: the queue, then the counter, then `dropping`. -/
theorem action_test (grow : ℕ → Option ℕ) (t : Tid) (late : Bool)
    (hop : op.waits = true) :
    (op.action grow t (.testQueue late) = read fun inner =>
      if op.side.queueReady inner.queue then op.resume
      else if op.blocks then .testPeers late else .testDropping late) ∧
    (op.action grow t (.testPeers late) = read fun inner =>
      if op.side.peers inner = 0 then op.resume else .testDropping late) ∧
    op.action grow t (.testDropping late) = read fun inner =>
      if inner.dropping then op.resume
      else if late then (op.expired.map .unlock).getD .sleep else .sleep := by
  cases op with
  | tryReceiveOnce => cases hop
  | trySendOnce item => cases hop
  | receive => cases late <;> exact ⟨rfl, rfl, rfl⟩
  | trySend item => cases late <;> exact ⟨rfl, rfl, rfl⟩
  | _ => exact ⟨rfl, rfl, rfl⟩

/-- `try_send_once` looks at the queue without waiting. -/
theorem action_testOnce (grow : ℕ → Option ℕ) (t : Tid) (late : Bool) (item : α) :
    (Op.trySendOnce item).action grow t (.testQueue late) = read fun inner =>
      if inner.queue.remainingCapacity = 0 then .unlock (.trySend (.error (.timedOut item)))
      else .readPeers := rfl

theorem action_readPeers (grow : ℕ → Option ℕ) (t : Tid)
    (hop : op ≠ .receive ∧ op ≠ .waitForMessageUntil) : op.action grow t .readPeers =
      read fun inner => if op.side.peers inner = 0 then .unlock op.dropped else .readDropping := by
  cases op with
  | receive => exact absurd rfl hop.1
  | waitForMessageUntil => exact absurd rfl hop.2
  | _ => rfl

theorem action_readDropping (grow : ℕ → Option ℕ) (t : Tid)
    (hop : op ≠ .receive ∧ op ≠ .waitForMessageUntil ∧ op ≠ .tryReceiveOnce) :
    op.action grow t .readDropping =
      read fun inner => if inner.dropping then .unlock op.dropped else .transfer := by
  cases op with
  | receive => exact absurd rfl hop.1
  | waitForMessageUntil => exact absurd rfl hop.2.1
  | tryReceiveOnce => exact absurd rfl hop.2.2
  | _ => rfl

/-- `try_receive_once` has found nothing in the queue before. -/
theorem action_readDroppingOnce (grow : ℕ → Option ℕ) (t : Tid) :
    (Op.tryReceiveOnce : Op α).action grow t .readDropping = read fun inner =>
      if inner.dropping then .unlock (.tryReceive (.error .noSenders))
      else .unlock (.tryReceive (.error .timedOut)) := rfl

theorem moves_of_testQueue (h : (op.action grow t (.testQueue late)).Goes s pc' s') :
    OpMoves grow t op (.testQueue late) s pc' s' := by
  by_cases hop : op.waits = true
  · rw [(action_test grow t late hop).1] at h
    obtain ⟨rfl, rfl⟩ := goes_read.mp h
    split
    · next hready => exact .ready (by rintro rfl; cases hop) (by simp [Op.Unready, hready])
    · next hready =>
      have hunready : op.Unready s'.inner := by simpa [Op.Unready] using hready
      split
      · next hblocks => exact .unready hblocks hunready
      · next hblocks => exact .lonely (op.eq_waitForMessage hop hblocks) hunready
  · cases op with
    | tryReceiveOnce => exact h.elim
    | trySendOnce item =>
      rw [action_testOnce] at h
      obtain ⟨rfl, rfl⟩ := goes_read.mp h
      split
      · next hfull => exact .full rfl (by simp [Op.Unready, Op.side, Side.queueReady, hfull])
      · next hroom => exact .ready (by simp) (by simp [Op.Unready, Op.side, Side.queueReady, hroom])
    | _ => exact absurd rfl hop

theorem moves_of_testPeers (h : (op.action grow t (.testPeers late)).Goes s pc' s') :
    OpMoves grow t op (.testPeers late) s pc' s' := by
  by_cases hop : op.waits = true
  · rw [(action_test grow t late hop).2.1] at h
    obtain ⟨rfl, rfl⟩ := goes_read.mp h
    split
    · next hzero => exact .disconnected hop hzero
    · next hpos => exact .connected hop hpos
  · cases op with
    | tryReceiveOnce => exact h.elim
    | trySendOnce item => exact h.elim
    | _ => exact absurd rfl hop

theorem moves_of_testDropping (h : (op.action grow t (.testDropping late)).Goes s pc' s') :
    OpMoves grow t op (.testDropping late) s pc' s' := by
  by_cases hop : op.waits = true
  · rw [(action_test grow t late hop).2.2] at h
    obtain ⟨rfl, rfl⟩ := goes_read.mp h
    split
    · next hd => exact .released hop hd
    · next hd =>
      have hset : s'.inner.dropping = false := by simpa using hd
      split
      · next hlate =>
        subst hlate
        cases hexpired : op.expired with
        | none => exact .sleeps hop hset
        | some r => exact .expires hop hexpired hset
      · exact .sleeps hop hset
  · cases op with
    | tryReceiveOnce => exact h.elim
    | trySendOnce item => exact h.elim
    | _ => exact absurd rfl hop

theorem moves_of_readPeers (h : (op.action grow t .readPeers).Goes s pc' s') :
    OpMoves grow t op .readPeers s pc' s' := by
  by_cases hop : op ≠ .receive ∧ op ≠ .waitForMessageUntil
  · rw [action_readPeers grow t hop] at h
    obtain ⟨rfl, rfl⟩ := goes_read.mp h
    split
    · next hzero => exact .alone hop.1 hzero
    · next hpos => exact .accompanied hpos
  · cases op with
    | receive => exact h.elim
    | waitForMessageUntil => exact h.elim
    | _ => simp at hop

theorem moves_of_readDropping (h : (op.action grow t .readDropping).Goes s pc' s') :
    OpMoves grow t op .readDropping s pc' s' := by
  by_cases hop : op ≠ .receive ∧ op ≠ .waitForMessageUntil ∧ op ≠ .tryReceiveOnce
  · rw [action_readDropping grow t hop] at h
    obtain ⟨rfl, rfl⟩ := goes_read.mp h
    split
    · next hd => exact .readDropped hd
    · next hd => exact .goesOn hop.2.2 (by simpa using hd)
  · cases op with
    | receive => exact h.elim
    | waitForMessageUntil => exact h.elim
    | tryReceiveOnce =>
      rw [action_readDroppingOnce] at h
      obtain ⟨rfl, rfl⟩ := goes_read.mp h
      split
      · next hd => exact .readDropped hd
      · next hd => exact .nothing rfl (by simpa using hd)
    | _ => simp at hop

theorem moves_of_transfer (h : (op.action grow t .transfer).Goes s pc' s') :
    OpMoves grow t op .transfer s pc' s' := by
  have hpush : ∀ {item : α}, op.item? = some item →
      (Inner.push grow t item op.success).Goes s pc' s' → OpMoves grow t op .transfer s pc' s' := by
    intro item hitem hgoes
    rcases goes_push.mp hgoes with ⟨hs, rfl⟩ | ⟨hs, rfl, rfl⟩
    · exact .push hitem hs
    · exact .pushFails hitem hs
  cases op with
  | receive =>
    rcases goes_pop.mp h with ⟨item, hs, rfl⟩ | ⟨hs, rfl, rfl⟩
    · exact .pop rfl hs
    · exact .popNothing rfl hs
  | tryReceiveUntil =>
    rcases goes_pop.mp h with ⟨item, hs, rfl⟩ | ⟨hs, rfl, rfl⟩
    · exact .pop rfl hs
    · exact .popFails rfl hs
  | tryReceiveOnce =>
    rcases goes_pop.mp h with ⟨item, hs, rfl⟩ | ⟨hs, rfl, rfl⟩
    · exact .pop rfl hs
    · exact .popNone rfl hs
  | waitForMessageUntil => exact h.elim
  | trySend item => exact hpush rfl h
  | trySendUntil item => exact hpush rfl h
  | trySendOnce item => exact hpush rfl h

/-- **What one step of an operation can do**: wherever its function goes, it makes one of the
moves. -/
theorem opMoves_of_goes (h : (op.action grow t pc).Goes s pc' s') :
    OpMoves grow t op pc s pc' s' := by
  cases pc with
  | start => exact moves_of_start h
  | lock => exact moves_of_lock h
  | testQueue late => exact moves_of_testQueue h
  | testPeers late => exact moves_of_testPeers h
  | testDropping late => exact moves_of_testDropping h
  | sleep => cases op <;> exact h.elim
  | readPeers => exact moves_of_readPeers h
  | readDropping => exact moves_of_readDropping h
  | transfer => exact moves_of_transfer h
  | notify r =>
    cases op with
    | waitForMessageUntil => exact h.elim
    | _ =>
      obtain ⟨rfl, rfl⟩ := h
      exact .notify
  | unlock r =>
    cases op <;>
    · obtain ⟨rfl, rfl⟩ := h
      exact .unlock
  | ret r => cases op <;> exact h.elim

end Inversion

end ShmemUtils.Channel
