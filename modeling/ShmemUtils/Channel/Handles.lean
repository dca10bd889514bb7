import ShmemUtils.Word
import ShmemUtils.Channel.Inner

/-!
# Handles

The rest of `src/channel.rs`: how handles are made, cloned, forked, dropped and destroyed, down to
the teardown in `Channel::drop`; and the program of a thread, which takes one call after another
from its client. A client may use a handle only in the process that holds it, a `Sender` or
`Receiver` only where it was made, and may drop it only when no call borrows it.
-/

namespace ShmemUtils.Channel

open ShmemUtils.Library.Monitor

/-- Where `make_sender`, `make_receiver` or a clone is: the steps of
`PerProcessReferences::increase`, then the new value. -/
inductive MakePc where
  | loadCounter
  | swapPid (count : ℕ)
  | addCounter
  | resetCounter (count : ℕ)
  | create
deriving DecidableEq, Repr

/-- The handle that is being made, and the one that it is made from. -/
structure Making where
  source : ℕ
  kind : Kind
  originalPid : ℕ
deriving DecidableEq, Repr

/-- Where a drop is. -/
inductive DropPc where
  -- `Drop for Sender`, `Drop for Receiver`: `atomic_checked_sub`, then the broadcast;
  -- `reached` when the decrement itself brought the counter to zero
  | load (side : Side)
  | exchange (side : Side) (counter : ℕ)
  | broadcast (side : Side) (reached : Bool)
  -- `Drop for Channel`, with `PerProcessReferences::decrease`
  | checkPid
  | swapPid
  | subCounter
  | storeDropping
  | swapReceivers
  | swapSenders (receivers : ℕ)
  | broadcastItem (senders : ℕ)
  | broadcastSpace
  | lock
  | unlock
  -- the drop of `Inner`: of its mutex with the queue, of its condition variables, and of its box
  | checkCreator
  | destroyMutex
  | dropQueue
  | destroyCondvar (side : Side)
  | freeInner
  | freeReferences
deriving DecidableEq, Repr

/-- The handle that is being dropped, and the `original_pid` of its channel. -/
structure Dropping where
  handle : ℕ
  originalPid : ℕ
deriving DecidableEq, Repr

/-- Where a thread is. -/
inductive Pc (α : Type) where
  | idle
  | op (h : ℕ) (op : Op α) (pc : OpPc α)
  | make (m : Making) (pc : MakePc)
  | drop (d : Dropping) (pc : DropPc)
deriving DecidableEq

namespace Pc

variable {α : Type}

/-- The thread owns the mutex. -/
def holding : Pc α → Bool
  | .op _ _ pc => pc.holding
  | .drop _ .unlock => true
  | _ => false

end Pc

abbrev PcAction (α : Type) : Type := Action (Shared α) (Pc α) Side (Input α)

variable {α : Type}

namespace Kind

/-- What dropping a value does first. -/
def dropPc : Kind → DropPc
  | .channel => .checkPid
  | .sender => .load .item
  | .receiver => .load .space

end Kind

/-- The fields of `Inner` are dropped in their order, and its box is freed after them. -/
def Side.afterDestroy : Side → DropPc
  | .item => .destroyCondvar .space
  | .space => .freeInner

namespace Shared

def endBorrow (s : Shared α) (t : Tid) (h : ℕ) : Shared α := s.modifyHandle h (Handle.giveBack t)

/-- The new value: `fetch_add` on the counter of its kind, if it has one. The counters of senders
and of receivers count values that exist, of which there are fewer than 2^64. -/
def create (s : Shared α) (t : Tid) (m : Making) : Shared α :=
  let v : Handle := ⟨m.kind, t.pid, t.pid, m.originalPid, .live []⟩
  { s.endBorrow t m.source with
    handles := (s.endBorrow t m.source).handles ++ [v]
    inner :=
      match m.kind with
      | .channel => s.inner
      | .sender => { s.inner with senders := s.inner.senders + 1 }
      | .receiver => { s.inner with receivers := s.inner.receivers + 1 } }

end Shared

/-! ## Making -/

/-- `Channel::clone`, and the addition to the counter of senders or of receivers. -/
def make (t : Tid) (m : Making) : MakePc → PcAction α
  | .loadCounter => .atomic fun s => (s, .make m (.swapPid (s.refs t.pid).counter))
  | .swapPid count => .atomic fun s =>
      let r := s.refs t.pid
      let s := s.setRefs t.pid { r with pid := t.pid }
      if r.pid = t.pid then
        (s, .make m .addCounter)
      -- `panic!("Unexpected situation: counter equals to zero!")`
      else if count = 0 then
        (s.endBorrow t m.source, .idle)
      else
        (s, .make m (.resetCounter count))
  | .addCounter => .atomic fun s =>
      let r := s.refs t.pid
      (s.setRefs t.pid { r with counter := Usize.wrappingAdd r.counter 1 }, .make m .create)
  | .resetCounter count => .atomic fun s =>
      let r := s.refs t.pid
      (s.setRefs t.pid { r with counter := Usize.wrappingSub r.counter (count - 1) },
        .make m .create)
  | .create => .atomic fun s => (s.create t m, .idle)

/-! ## Dropping -/

/-- `compare_exchange_weak(counter, counter - 1)`. After a failure the loop goes on with the value
found, or ends when that is zero. -/
def compareExchange (d : Dropping) (side : Side) (counter : ℕ) (spurious : Bool) (s : Shared α) :
    Shared α × Pc α :=
  if spurious = false ∧ side.peers s.inner = counter then
    ((s.setInner (side.setPeers (counter - 1) s.inner)).setPhase d.handle .released,
      if counter - 1 = 0 then .drop d (.broadcast side true) else .drop d .checkPid)
  else if side.peers s.inner = 0 then
    (s.setPhase d.handle .released, .drop d (.broadcast side false))
  else
    (s, .drop d (.exchange side (side.peers s.inner)))

/-- `Drop for Sender`, `Drop for Receiver` and `Drop for Channel`. -/
def drop (t : Tid) (d : Dropping) : DropPc → PcAction α
  | .load side => .atomic fun s =>
      -- "This probably means the original `Channel` structure was destroyed. It's okay."
      if side.peers s.inner = 0 then
        (s.setPhase d.handle .released, .drop d (.broadcast side false))
      else
        (s, .drop d (.exchange side (side.peers s.inner)))
  | .exchange side counter => .ask fun i s =>
      match i with
      | .exchange spurious => some (compareExchange d side counter spurious s)
      | _ => none
  | .broadcast side _ => .broadcast side (.drop d .checkPid)
  -- not an owner of the queue
  | .checkPid => .atomic fun s =>
      if d.originalPid ≠ t.pid then (s.setPhase d.handle .gone, .idle) else (s, .drop d .swapPid)
  | .swapPid => .atomic fun s =>
      let r := s.refs t.pid
      (s.setRefs t.pid { r with pid := t.pid },
        if r.pid = t.pid then .drop d .subCounter else .drop d .storeDropping)
  | .subCounter => .atomic fun s =>
      let r := s.refs t.pid
      let s := s.setRefs t.pid { r with counter := Usize.wrappingSub r.counter 1 }
      if r.counter = 1 then (s, .drop d .storeDropping) else (s.setPhase d.handle .gone, .idle)
  | .storeDropping => .atomic fun s =>
      (s.setInner { s.inner with dropping := true }, .drop d .swapReceivers)
  | .swapReceivers => .atomic fun s =>
      (s.setInner { s.inner with receivers := 0 }, .drop d (.swapSenders s.inner.receivers))
  | .swapSenders receivers => .atomic fun s =>
      (s.setInner { s.inner with senders := 0 },
        if receivers ≠ 0 then .drop d (.broadcastItem s.inner.senders)
        else if s.inner.senders ≠ 0 then .drop d .broadcastSpace
        else .drop d .lock)
  | .broadcastItem senders =>
      .broadcast .item (if senders ≠ 0 then .drop d .broadcastSpace else .drop d .lock)
  | .broadcastSpace => .broadcast .space (.drop d .lock)
  -- "The allocated memory will probably leak", and the teardown goes on
  | .lock => .timedLock (.drop d .unlock) (.drop d .checkCreator)
  | .unlock => .unlock (.drop d .checkCreator)
  -- only the process that made the mutex and the condition variables destroys them
  | .checkCreator => .atomic fun s =>
      (s, if s.inner.creatorPid = t.pid then .drop d .destroyMutex else .drop d .freeInner)
  -- destroying a mutex that is in use fails, and its data is not dropped
  | .destroyMutex => .probe (.drop d .dropQueue) (.drop d (.destroyCondvar .item))
  | .dropQueue => .atomic fun s =>
      ({ s.setInner { s.inner with queue := { s.inner.queue with items := [] } } with
          queueFrees := s.queueFrees + 1 },
        .drop d (.destroyCondvar .item))
  -- `pthread_cond_destroy` blocks while a thread is registered
  | .destroyCondvar side => .drain side (.drop d side.afterDestroy)
  | .freeInner => .atomic fun s =>
      ({ s with innerFrees := s.innerFrees + 1 }, .drop d .freeReferences)
  | .freeReferences => .atomic fun s =>
      ({ s.setPhase d.handle .gone with
          refsFrees := fun p => if p = t.pid then s.refsFrees p + 1 else s.refsFrees p },
        .idle)

/-! ## Threads -/

/-- What a client may ask of a thread that is idle. -/
def client (t : Tid) : Input α → Shared α → Option (Shared α × Pc α)
  | .call h op, s =>
    match s.handles[h]? with
    | some v =>
      if v.kind = op.kind ∧ v.proc = t.pid ∧ v.creator = t.pid ∧ v.isLive then
        some (s.begin t h, .op h op .start)
      else none
    | none => none
  | .make h kind, s =>
    match s.handles[h]? with
    | some v =>
      if v.proc = t.pid ∧ v.isLive ∧ (v.kind = .channel ∨ v.kind = kind ∧ v.creator = t.pid) then
        some (s.modifyHandle h (Handle.borrow t), .make ⟨h, kind, v.originalPid⟩ .loadCounter)
      else none
    | none => none
  | .drop h, s =>
    match s.handles[h]? with
    | some v =>
      if v.proc = t.pid ∧ v.phase = .live [] then
        some (s.setPhase h .closing, .drop ⟨h, v.originalPid⟩ v.kind.dropPc)
      else none
    | none => none
  -- `destroy` drops the channel as if this process had created it
  | .destroy h, s =>
    match s.handles[h]? with
    | some v =>
      if v.proc = t.pid ∧ v.phase = .live [] ∧ v.kind = .channel then
        some (s.modifyHandle h fun v => { v with originalPid := t.pid, phase := .closing },
          .drop ⟨h, t.pid⟩ .checkPid)
      else none
    | none => none
  | .fork, s => if t.pid < s.nextPid then some (s.fork t.pid, .idle) else none
  | .exchange _, _ => none

/-- The program of a thread. -/
def program (grow : ℕ → Option ℕ) (t : Tid) : Pc α → PcAction α
  | .idle => .ask (client t)
  | .op h op (.ret r) => .atomic fun s => (s.finish t h op r, .idle)
  | .op h op pc => (op.action grow t pc).map (.op h op)
  | .make m pc => make t m pc
  | .drop d pc => drop t d pc

abbrev State (α : Type) : Type := Config Tid (Shared α) (Pc α) Side

abbrev Event (α : Type) : Type := Label Tid (Input α)

abbrev Trace (α : Type) : Type := List (State α × Event α)

/-- A channel with `capacity`, before any thread has done anything. -/
def initial (capacity : ℕ) : State α where
  shared := .new capacity
  owner := none
  waiters _ := []
  waiting := []
  threads _ := .running .idle

/-! ## Scripts -/

/-- A thread takes `n` steps that leave it no choice. -/
def runs (t : Tid) (n : ℕ) : List (Event α) := List.replicate n (.run t)

/-- A call, and its first steps. -/
def calling (t : Tid) (h : ℕ) (op : Op α) (n : ℕ) : List (Event α) :=
  .ask t (.call h op) :: runs t n

/-- A handle is made in the process that holds the channel. -/
def making (t : Tid) (h : ℕ) (kind : Kind) : List (Event α) := .ask t (.make h kind) :: runs t 4

/-- A handle is dropped: the counter is read and decremented, and `n` steps follow. -/
def dropping (t : Tid) (h n : ℕ) : List (Event α) :=
  .ask t (.drop h) :: runs t 1 ++ .ask t (.exchange false) :: runs t n

/-! ## What a client may ask -/

/-- What an idle thread goes on to do, one case for each thing that a client may ask. -/
inductive Asked (t : Tid) (s : Shared α) : Input α → Shared α → Pc α → Prop where
  | call {h : ℕ} {op : Op α} {v : Handle} :
      s.handles[h]? = some v → v.kind = op.kind → v.proc = t.pid → v.creator = t.pid →
      v.isLive = true → Asked t s (.call h op) (s.begin t h) (.op h op .start)
  | make {h : ℕ} {kind : Kind} {v : Handle} :
      s.handles[h]? = some v → v.proc = t.pid → v.isLive = true →
      v.kind = .channel ∨ v.kind = kind ∧ v.creator = t.pid →
      Asked t s (.make h kind) (s.modifyHandle h (Handle.borrow t))
        (.make ⟨h, kind, v.originalPid⟩ .loadCounter)
  | drop {h : ℕ} {v : Handle} :
      s.handles[h]? = some v → v.proc = t.pid → v.phase = .live [] →
      Asked t s (.drop h) (s.setPhase h .closing) (.drop ⟨h, v.originalPid⟩ v.kind.dropPc)
  | destroy {h : ℕ} {v : Handle} :
      s.handles[h]? = some v → v.proc = t.pid → v.phase = .live [] → v.kind = .channel →
      Asked t s (.destroy h)
        (s.modifyHandle h fun v => { v with originalPid := t.pid, phase := .closing })
        (.drop ⟨h, t.pid⟩ .checkPid)
  | fork : t.pid < s.nextPid → Asked t s .fork (s.fork t.pid) .idle

theorem client_cases {t : Tid} {i : Input α} {s s' : Shared α} {l' : Pc α}
    (h : client t i s = some (s', l')) : Asked t s i s' l' := by
  cases i with
  | call k op =>
    simp only [client] at h
    split at h
    · next v hv =>
      split at h
      · next hc => cases h; exact .call hv hc.1 hc.2.1 hc.2.2.1 hc.2.2.2
      · cases h
    · cases h
  | make k kind =>
    simp only [client] at h
    split at h
    · next v hv =>
      split at h
      · next hc => cases h; exact .make hv hc.1 hc.2.1 hc.2.2
      · cases h
    · cases h
  | drop k =>
    simp only [client] at h
    split at h
    · next v hv =>
      split at h
      · next hc => cases h; exact .drop hv hc.1 hc.2
      · cases h
    · cases h
  | destroy k =>
    simp only [client] at h
    split at h
    · next v hv =>
      split at h
      · next hc => cases h; exact .destroy hv hc.1 hc.2.1 hc.2.2
      · cases h
    · cases h
  | fork =>
    simp only [client] at h
    split at h
    · next hc => cases h; exact .fork hc
    · cases h
  | exchange spurious => cases h

/-! ## The lock discipline -/

attribute [simp] OpPc.holding.eq_1 OpPc.holding.eq_2 OpPc.holding.eq_3 OpPc.holding.eq_4

@[simp] theorem OpPc.holding_ite (p : Prop) [Decidable p] (a b : OpPc α) :
    (if p then a else b).holding = if p then a.holding else b.holding := by
  split <;> rfl

theorem read_respects (f : Inner α → OpPc α) (held : Bool) :
    (read f).Respects OpPc.holding held ↔ ∀ s : Shared α, (f s.inner).holding = held := Iff.rfl

theorem push_respects (grow : ℕ → Option ℕ) (t : Tid) (item : α) (r : Ret α) :
    (Inner.push grow t item r).Respects OpPc.holding true := by
  intro s
  cases h : s.pushBack grow t item <;> simp [h]

theorem pop_respects (t : Tid) (f : α → Ret α) {pc : OpPc α} (hpc : pc.holding = true) :
    (Inner.pop t f pc).Respects OpPc.holding true := by
  intro s
  cases h : s.popFront t with
  | none => simpa only [h] using hpc
  | some r => simp [h]

/-- Every operation holds the mutex exactly where its points say. -/
theorem opDisciplined (grow : ℕ → Option ℕ) (t : Tid) (op : Op α) (pc : OpPc α) :
    (op.action grow t pc).Respects OpPc.holding pc.holding := by
  cases op <;> cases pc <;>
    simp [Op.action, Inner.receive, Inner.tryReceiveUntil, Inner.tryReceiveOnce,
      Inner.waitForMessageUntil, Inner.trySend, Inner.trySendUntil, Inner.trySendOnce,
      Condvar.wait, Condvar.waitUntil, Condvar.isReady, read_respects, push_respects,
      pop_respects]

/-- **The channel's program respects the lock.** -/
theorem disciplined (grow : ℕ → Option ℕ) : Disciplined (program grow (α := α)) Pc.holding := by
  intro t l
  cases l with
  | idle =>
    rintro i s ⟨s', l'⟩ hr
    cases client_cases hr with
    | @drop h v =>
      show Pc.holding (.drop _ v.kind.dropPc) = false
      cases v.kind <;> rfl
    | _ => rfl
  | op h op pc =>
    cases pc with
    | ret r => exact fun s => rfl
    | _ => exact Action.respects_map.mpr (opDisciplined grow t op _)
  | make m pc =>
    cases pc with
    | swapPid count =>
      intro s
      dsimp only
      split
      · rfl
      · split <;> rfl
    | _ => exact fun s => rfl
  | drop d pc =>
    cases pc with
    | lock => exact ⟨rfl, rfl, rfl⟩
    | unlock => exact ⟨rfl, rfl⟩
    | destroyMutex => exact ⟨rfl, rfl⟩
    | destroyCondvar side => cases side <;> exact ⟨rfl, rfl⟩
    | exchange side counter =>
      intro i s r hr
      cases i with
      | exchange spurious =>
        cases hr
        unfold compareExchange
        split
        · dsimp only
          split <;> rfl
        · split <;> rfl
      | _ => cases hr
    | broadcast side reached => rfl
    | broadcastItem senders =>
      show Pc.holding (if _ then _ else _) = _
      split <;> rfl
    | broadcastSpace => rfl
    | swapSenders receivers =>
      intro s
      dsimp only
      split
      · rfl
      · split <;> rfl
    | storeDropping => exact fun s => rfl
    | swapReceivers => exact fun s => rfl
    | dropQueue => exact fun s => rfl
    | freeInner => exact fun s => rfl
    | freeReferences => exact fun s => rfl
    | _ =>
      intro s
      dsimp only
      split <;> rfl

end ShmemUtils.Channel
