import ShmemUtils.Library.Outline
import ShmemUtils.Channel.State

/-!
# The operations of `Inner`

`src/channel.rs`, `impl Inner`, and the waits of `src/condvar.rs`. A call is at a program point
`OpPc`; each function below gives the action of one operation at each of its points, an atomic
access, a mutex operation or a condition variable operation at a time. Points that an operation
does not have are `halt`.
-/

namespace ShmemUtils.Channel

open ShmemUtils.Library.Monitor

/-- Where a call is. -/
inductive OpPc (α : Type) where
  -- `self.dropping.load` before the lock
  | start
  | lock
  -- the three reads of a wait's predicate; `late` after the wait has run out of time
  | testQueue (late : Bool)
  | testPeers (late : Bool)
  | testDropping (late : Bool)
  -- `pthread_cond_wait`, `pthread_cond_timedwait`
  | sleep
  -- the reads of the counter and of `dropping` after the wait
  | readPeers
  | readDropping
  -- `push_back`, `pop_front`
  | transfer
  -- the signal, the end of the guard's life, and the return
  | notify (r : Ret α)
  | unlock (r : Ret α)
  | ret (r : Ret α)
deriving DecidableEq

namespace OpPc

variable {α : Type}

/-- The call owns the guard of the mutex. -/
def holding : OpPc α → Bool
  | .start => false
  | .lock => false
  | .ret _ => false
  | _ => true

end OpPc

/-- What a client, or the environment, chooses. -/
inductive Input (α : Type) where
  | call (h : ℕ) (op : Op α)
  -- `Channel::clone`, `make_sender`, `make_receiver`, and `clone` of a sender or receiver
  | make (h : ℕ) (kind : Kind)
  | drop (h : ℕ)
  | destroy (h : ℕ)
  | fork
  -- whether a `compare_exchange_weak` fails without a reason
  | exchange (spurious : Bool)
deriving DecidableEq

abbrev OpAction (α : Type) : Type := Action (Shared α) (OpPc α) Side (Input α)

variable {α : Type}

/-- One atomic read of `Inner`. -/
def read (f : Inner α → OpPc α) : OpAction α := .atomic fun s => (s, f s.inner)

namespace Condvar

/-- A predicate: the queue, then the other side's counter if `peers`, then `dropping`. -/
def isReady (cv : Side) (peers : Bool) (ready notReady : Bool → OpPc α) : OpPc α → OpAction α
  | .testQueue late => read fun inner =>
      if cv.queueReady inner.queue then ready late
      else if peers then .testPeers late
      else .testDropping late
  | .testPeers late => read fun inner =>
      if cv.peers inner = 0 then ready late else .testDropping late
  | .testDropping late => read fun inner =>
      if inner.dropping then ready late else notReady late
  | _ => .halt

def wait (cv : Side) (peers : Bool) (ready : OpPc α) : OpPc α → OpAction α
  | .sleep => .wait cv (.testQueue false) none
  | pc => isReady cv peers (fun _ => ready) (fun _ => .sleep) pc

def waitUntil (cv : Side) (peers : Bool) (ready timedOut : OpPc α) : OpPc α → OpAction α
  | .sleep => .wait cv (.testQueue false) (some (.testQueue true))
  | pc => isReady cv peers (fun _ => ready) (fun late => if late then timedOut else .sleep) pc

end Condvar

namespace Inner

variable (grow : ℕ → Option ℕ) (t : Tid)

/-- `push`: without room the deque has to grow, and a failure drops the guard and is returned to
an `expect`. -/
def push (item : α) (r : Ret α) : OpAction α := .atomic fun s =>
  match s.pushBack grow t item with
  | some s => (s, .notify r)
  | none => (s, .unlock .panicked)

/-- `pop`: the signal follows only when there was an item. -/
def pop (some' : α → Ret α) (none' : OpPc α) : OpAction α := .atomic fun s =>
  match s.popFront t with
  | some (item, s) => (s, .notify (some' item))
  | none => (s, none')

def waitForMessageUntil : OpPc α → OpAction α
  | .start => read fun inner =>
      if inner.dropping then .ret (.waitForMessage (.error .queueDropped)) else .lock
  | .lock => .timedLock (.testQueue false) (.ret (.waitForMessage (.error .timeoutReached)))
  | .unlock r => .unlock (.ret r)
  | pc => Condvar.waitUntil .item false (.unlock (.waitForMessage (.ok ())))
      (.unlock (.waitForMessage (.error .timeoutReached))) pc

def receive : OpPc α → OpAction α
  | .start => read fun inner => if inner.dropping then .ret (.receive none) else .lock
  -- out of time, the loop starts again
  | .lock => .timedLock (.testQueue false) .start
  | .transfer => pop t (fun item => .receive (some item)) (.unlock (.receive none))
  | .notify r => .signal .space (.unlock r)
  | .unlock r => .unlock (.ret r)
  | pc => Condvar.wait .item true .transfer pc

def tryReceiveUntil : OpPc α → OpAction α
  | .start => read fun inner =>
      if inner.dropping then .ret (.tryReceive (.error .noSenders)) else .lock
  | .lock => .timedLock (.testQueue false) (.ret (.tryReceive (.error .timedOut)))
  | .readPeers => read fun inner =>
      if inner.senders = 0 then .unlock (.tryReceive (.error .noSenders)) else .readDropping
  | .readDropping => read fun inner =>
      if inner.dropping then .unlock (.tryReceive (.error .noSenders)) else .transfer
  -- `expect("There should be something!!")`
  | .transfer => pop t (fun item => .tryReceive (.ok item)) (.unlock .panicked)
  | .notify r => .signal .space (.unlock r)
  | .unlock r => .unlock (.ret r)
  | pc => Condvar.waitUntil .item true .readPeers (.unlock (.tryReceive (.error .timedOut))) pc

def tryReceiveOnce : OpPc α → OpAction α
  | .start => read fun inner =>
      if inner.dropping then .ret (.tryReceive (.error .noSenders)) else .lock
  | .lock => .tryLock .transfer (.ret (.tryReceive (.error .timedOut)))
  | .transfer => pop t (fun item => .tryReceive (.ok item)) .readPeers
  | .readPeers => read fun inner =>
      if inner.senders = 0 then .unlock (.tryReceive (.error .noSenders)) else .readDropping
  | .readDropping => read fun inner =>
      if inner.dropping then .unlock (.tryReceive (.error .noSenders))
      else .unlock (.tryReceive (.error .timedOut))
  | .notify r => .signal .space (.unlock r)
  | .unlock r => .unlock (.ret r)
  | _ => .halt

def trySend (item : α) : OpPc α → OpAction α
  | .start => read fun inner => if inner.dropping then .ret (.send (.error item)) else .lock
  | .lock => .timedLock (.testQueue false) .start
  | .readPeers => read fun inner =>
      if inner.receivers = 0 then .unlock (.send (.error item)) else .readDropping
  | .readDropping => read fun inner =>
      if inner.dropping then .unlock (.send (.error item)) else .transfer
  -- `expect("Shouldn't fail")`
  | .transfer => push grow t item (.send (.ok ()))
  | .notify r => .signal .item (.unlock r)
  | .unlock r => .unlock (.ret r)
  | pc => Condvar.wait .space true .readPeers pc

def trySendUntil (item : α) : OpPc α → OpAction α
  | .start => read fun inner =>
      if inner.dropping then .ret (.trySend (.error (.noReceivers item))) else .lock
  | .lock => .timedLock (.testQueue false) (.ret (.trySend (.error (.timedOut item))))
  | .readPeers => read fun inner =>
      if inner.receivers = 0 then .unlock (.trySend (.error (.noReceivers item)))
      else .readDropping
  | .readDropping => read fun inner =>
      if inner.dropping then .unlock (.trySend (.error (.noReceivers item))) else .transfer
  | .transfer => push grow t item (.trySend (.ok ()))
  | .notify r => .signal .item (.unlock r)
  | .unlock r => .unlock (.ret r)
  | pc => Condvar.waitUntil .space true .readPeers
      (.unlock (.trySend (.error (.timedOut item)))) pc

def trySendOnce (item : α) : OpPc α → OpAction α
  | .start => read fun inner =>
      if inner.dropping then .ret (.trySend (.error (.noReceivers item))) else .lock
  | .lock => .tryLock (.testQueue false) (.ret (.trySend (.error (.timedOut item))))
  | .testQueue _ => read fun inner =>
      if inner.queue.remainingCapacity = 0 then .unlock (.trySend (.error (.timedOut item)))
      else .readPeers
  | .readPeers => read fun inner =>
      if inner.receivers = 0 then .unlock (.trySend (.error (.noReceivers item)))
      else .readDropping
  | .readDropping => read fun inner =>
      if inner.dropping then .unlock (.trySend (.error (.noReceivers item))) else .transfer
  | .transfer => push grow t item (.trySend (.ok ()))
  | .notify r => .signal .item (.unlock r)
  | .unlock r => .unlock (.ret r)
  | _ => .halt

end Inner

namespace Op

/-- The kind of handle whose method it is. -/
def kind : Op α → Kind
  | .receive => .receiver
  | .tryReceiveUntil => .receiver
  | .tryReceiveOnce => .receiver
  | .waitForMessageUntil => .receiver
  | .trySend _ => .sender
  | .trySendUntil _ => .sender
  | .trySendOnce _ => .sender

def action (grow : ℕ → Option ℕ) (t : Tid) : Op α → OpPc α → OpAction α
  | .receive => Inner.receive t
  | .tryReceiveUntil => Inner.tryReceiveUntil t
  | .tryReceiveOnce => Inner.tryReceiveOnce t
  | .waitForMessageUntil => Inner.waitForMessageUntil
  | .trySend item => Inner.trySend grow t item
  | .trySendUntil item => Inner.trySendUntil grow t item
  | .trySendOnce item => Inner.trySendOnce grow t item

end Op

end ShmemUtils.Channel
