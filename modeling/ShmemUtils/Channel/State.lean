import Mathlib

/-!
# The state of a channel

`src/channel.rs` and `src/process_rc.rs`: the shared `Inner`, the handles in the memory of each
process, and the per-process reference counters. Processes share `Inner` and nothing else; `fork`
copies the handles and the counter of the parent. Beside the program's own data there is a history
of what was pushed, popped and returned by which call.
-/

namespace ShmemUtils.Channel

/-- A thread of a process. -/
structure Tid where
  pid : ℕ
  idx : ℕ
deriving DecidableEq, Repr

/-! ## The shared part -/

/-- `alloc_collections::deque::VecDeque` -/
structure VecDeque (α : Type) where
  items : List α
  capacity : ℕ
deriving DecidableEq, Repr

namespace VecDeque

variable {α : Type}

def isEmpty (q : VecDeque α) : Bool := q.items.isEmpty

def remainingCapacity (q : VecDeque α) : ℕ := q.capacity - q.items.length

/-- With spare capacity an item is appended. Without it the deque has to grow: `grow` gives the new
capacity, or `none` when the allocation fails. -/
def pushBack (grow : ℕ → Option ℕ) (q : VecDeque α) (item : α) : Option (VecDeque α) :=
  if q.remainingCapacity ≠ 0 then
    some { q with items := q.items ++ [item] }
  else
    (grow q.capacity).map fun capacity => ⟨q.items ++ [item], capacity⟩

def popFront (q : VecDeque α) : Option (α × VecDeque α) :=
  match q.items with
  | [] => none
  | item :: items => some (item, { q with items })

end VecDeque

structure Inner (α : Type) where
  queue : VecDeque α
  receivers : ℕ
  senders : ℕ
  dropping : Bool
  -- the process that created the mutex and the condition variables
  creatorPid : ℕ
deriving DecidableEq, Repr

/-- The two condition variables. -/
inductive Side where
  -- `item_maybe_available`
  | item
  -- `space_maybe_available`
  | space
deriving DecidableEq, Repr

namespace Side

variable {α : Type}

/-- What the waiters of the condition variable need from the queue. -/
def queueReady : Side → VecDeque α → Bool
  | .item, queue => !queue.isEmpty
  | .space, queue => queue.remainingCapacity != 0

/-- The counter of those who can provide it. -/
def peers : Side → Inner α → ℕ
  | .item, inner => inner.senders
  | .space, inner => inner.receivers

def setPeers : Side → ℕ → Inner α → Inner α
  | .item, n, inner => { inner with senders := n }
  | .space, n, inner => { inner with receivers := n }

end Side

/-! ## The processes' part -/

/-- `process_rc::PerProcessReferences`, in the memory of one process. -/
structure PerProcessReferences where
  counter : ℕ
  pid : ℕ
deriving DecidableEq, Repr

inductive Kind where
  | channel
  | sender
  | receiver
deriving DecidableEq, Repr

/-- The life of a handle. A `Sender` or `Receiver` is released when its own `drop` has taken it out
of the counter, and gone when the `Channel` inside it has been dropped too. -/
inductive Phase where
  -- borrowed by the calls that these threads are in
  | live (users : List Tid)
  | closing
  | released
  | gone
deriving DecidableEq, Repr

/-- A `Channel`, `Sender` or `Receiver` value. -/
structure Handle where
  kind : Kind
  -- the process whose memory holds the value, and the one that made it
  proc : ℕ
  creator : ℕ
  originalPid : ℕ
  phase : Phase
deriving DecidableEq, Repr

namespace Handle

def isLive (v : Handle) : Bool :=
  match v.phase with
  | .live _ => true
  | _ => false

def borrow (t : Tid) (v : Handle) : Handle :=
  match v.phase with
  | .live users => { v with phase := .live (t :: users) }
  | _ => v

def giveBack (t : Tid) (v : Handle) : Handle :=
  match v.phase with
  | .live users => { v with phase := .live (users.erase t) }
  | _ => v

end Handle

/-! ## Calls and their results -/

inductive TrySendError (α : Type) where
  | timedOut (item : α)
  | noReceivers (item : α)
deriving DecidableEq, Repr

inductive TryReceiveError where
  | timedOut
  | noSenders
deriving DecidableEq, Repr

inductive WaitingError where
  | queueDropped
  | timeoutReached
deriving DecidableEq, Repr

/-- The operations of `Inner`, with their arguments. When a deadline passes is left to the
environment, and its conversion is taken to succeed. -/
inductive Op (α : Type) where
  | receive
  | tryReceiveUntil
  | tryReceiveOnce
  | waitForMessageUntil
  | trySend (item : α)
  | trySendUntil (item : α)
  | trySendOnce (item : α)
deriving DecidableEq, Repr

/-- What an operation returns. -/
inductive Ret (α : Type) where
  | receive (r : Option α)
  | tryReceive (r : Except TryReceiveError α)
  | waitForMessage (r : Except WaitingError Unit)
  | send (r : Except α Unit)
  | trySend (r : Except (TrySendError α) Unit)
  -- an `expect` failed
  | panicked
deriving DecidableEq

/-- A call: the thread, and how many calls it had begun. -/
structure Call where
  thread : Tid
  number : ℕ
deriving DecidableEq, Repr

/-- What has happened on the channel. -/
structure History (α : Type) where
  pushed : List (Call × α)
  popped : List (Call × α)
  results : List (Call × Op α × Ret α)
  calls : Tid → ℕ

/-- The data that the threads of all processes act on. -/
structure Shared (α : Type) where
  inner : Inner α
  handles : List Handle
  refs : ℕ → PerProcessReferences
  nextPid : ℕ
  -- how often the queue's buffer, the box of `Inner` and the counter of a process were freed
  queueFrees : ℕ
  innerFrees : ℕ
  refsFrees : ℕ → ℕ
  history : History α

namespace Shared

variable {α : Type}

/-- The call that a thread is in. -/
def call (s : Shared α) (t : Tid) : Call := ⟨t, s.history.calls t⟩

def setInner (s : Shared α) (inner : Inner α) : Shared α := { s with inner }

/-- A process changes its own counter. -/
def setRefs (s : Shared α) (pid : ℕ) (r : PerProcessReferences) : Shared α :=
  { s with refs := fun p => if p = pid then r else s.refs p }

def modifyHandle (s : Shared α) (h : ℕ) (f : Handle → Handle) : Shared α :=
  { s with handles := s.handles.modify h f }

def setPhase (s : Shared α) (h : ℕ) (phase : Phase) : Shared α :=
  s.modifyHandle h fun v => { v with phase }

/-- An item goes into the queue on behalf of the call that `t` is in. -/
def pushBack (grow : ℕ → Option ℕ) (s : Shared α) (t : Tid) (item : α) : Option (Shared α) :=
  (s.inner.queue.pushBack grow item).map fun queue =>
    { s with
      inner := { s.inner with queue }
      history := { s.history with pushed := s.history.pushed ++ [(s.call t, item)] } }

/-- The front item leaves the queue. -/
def popFront (s : Shared α) (t : Tid) : Option (α × Shared α) :=
  s.inner.queue.popFront.map fun (item, queue) =>
    (item,
      { s with
        inner := { s.inner with queue }
        history := { s.history with popped := s.history.popped ++ [(s.call t, item)] } })

/-- A call begins, and borrows its handle. -/
def begin (s : Shared α) (t : Tid) (h : ℕ) : Shared α :=
  { s.modifyHandle h (Handle.borrow t) with
    history := { s.history with
      calls := fun u => if u = t then s.history.calls u + 1 else s.history.calls u } }

/-- A call returns, and gives its handle back. -/
def finish (s : Shared α) (t : Tid) (h : ℕ) (op : Op α) (r : Ret α) : Shared α :=
  { s.modifyHandle h (Handle.giveBack t) with
    history := { s.history with results := s.history.results ++ [(s.call t, op, r)] } }

/-- `fork`: the child gets copies of the parent's handles and of its counter. -/
def fork (s : Shared α) (pid : ℕ) : Shared α :=
  { s with
    handles := s.handles ++ (s.handles.filter fun v => v.proc == pid && v.isLive).map fun v =>
      { v with proc := s.nextPid, phase := .live [] }
    refs := fun p => if p = s.nextPid then s.refs pid else s.refs p
    nextPid := s.nextPid + 1 }

/-- `Channel::new` in process 0. -/
def new (capacity : ℕ) : Shared α where
  inner := ⟨⟨[], capacity⟩, 0, 0, false, 0⟩
  handles := [⟨.channel, 0, 0, 0, .live []⟩]
  refs _ := ⟨1, 0⟩
  nextPid := 1
  queueFrees := 0
  innerFrees := 0
  refsFrees _ := 0
  history := ⟨[], [], [], fun _ => 0⟩

end Shared

end ShmemUtils.Channel
