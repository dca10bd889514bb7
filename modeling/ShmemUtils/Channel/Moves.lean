import ShmemUtils.Channel.Handles

/-!
# What one step can do

`Moves` lists what a thread can do at each of its points: where it goes on, and how it changes the
shared data. `moves_of_goes` derives the list from the program once; what a step leaves alone is
then read off the list.
-/

namespace ShmemUtils.Channel

open ShmemUtils.Library.Monitor

variable {α : Type}

/-! ## Fields that an update leaves alone -/

namespace Shared

variable (s : Shared α) (t : Tid) (h pid : ℕ) (r : PerProcessReferences) (p : Phase)
  (f : Handle → Handle) (inner : Inner α) (op : Op α) (res : Ret α) (m : Making)

@[simp] theorem setInner_inner : (s.setInner inner).inner = inner := rfl
@[simp] theorem setInner_handles : (s.setInner inner).handles = s.handles := rfl
@[simp] theorem setInner_history : (s.setInner inner).history = s.history := rfl
@[simp] theorem setRefs_inner : (s.setRefs pid r).inner = s.inner := rfl
@[simp] theorem setRefs_handles : (s.setRefs pid r).handles = s.handles := rfl
@[simp] theorem setRefs_history : (s.setRefs pid r).history = s.history := rfl
@[simp] theorem modifyHandle_inner : (s.modifyHandle h f).inner = s.inner := rfl
@[simp] theorem modifyHandle_history : (s.modifyHandle h f).history = s.history := rfl
@[simp] theorem setPhase_inner : (s.setPhase h p).inner = s.inner := rfl
@[simp] theorem setPhase_history : (s.setPhase h p).history = s.history := rfl
@[simp] theorem endBorrow_inner : (s.endBorrow t h).inner = s.inner := rfl
@[simp] theorem endBorrow_history : (s.endBorrow t h).history = s.history := rfl
@[simp] theorem begin_inner : (s.begin t h).inner = s.inner := rfl
@[simp] theorem finish_inner : (s.finish t h op res).inner = s.inner := rfl
@[simp] theorem fork_inner : (s.fork pid).inner = s.inner := rfl
@[simp] theorem fork_history : (s.fork pid).history = s.history := rfl
@[simp] theorem create_history : (s.create t m).history = s.history := rfl

@[simp] theorem setInner_queueFrees : (s.setInner inner).queueFrees = s.queueFrees := rfl
@[simp] theorem setRefs_queueFrees : (s.setRefs pid r).queueFrees = s.queueFrees := rfl
@[simp] theorem setPhase_queueFrees : (s.setPhase h p).queueFrees = s.queueFrees := rfl
@[simp] theorem endBorrow_queueFrees : (s.endBorrow t h).queueFrees = s.queueFrees := rfl
@[simp] theorem create_queueFrees : (s.create t m).queueFrees = s.queueFrees := rfl

@[simp] theorem setInner_innerFrees : (s.setInner inner).innerFrees = s.innerFrees := rfl
@[simp] theorem setRefs_innerFrees : (s.setRefs pid r).innerFrees = s.innerFrees := rfl
@[simp] theorem setPhase_innerFrees : (s.setPhase h p).innerFrees = s.innerFrees := rfl
@[simp] theorem endBorrow_innerFrees : (s.endBorrow t h).innerFrees = s.innerFrees := rfl
@[simp] theorem create_innerFrees : (s.create t m).innerFrees = s.innerFrees := rfl

@[simp] theorem create_queue : (s.create t m).inner.queue = s.inner.queue := by
  unfold create
  cases m.kind <;> rfl

@[simp] theorem create_dropping : (s.create t m).inner.dropping = s.inner.dropping := by
  unfold create
  cases m.kind <;> rfl

@[simp] theorem create_creatorPid : (s.create t m).inner.creatorPid = s.inner.creatorPid := by
  unfold create
  cases m.kind <;> rfl

end Shared

@[simp] theorem Side.setPeers_queue (side : Side) (n : ℕ) (inner : Inner α) :
    (side.setPeers n inner).queue = inner.queue := by
  cases side <;> rfl

@[simp] theorem Side.setPeers_dropping (side : Side) (n : ℕ) (inner : Inner α) :
    (side.setPeers n inner).dropping = inner.dropping := by
  cases side <;> rfl

@[simp] theorem Side.setPeers_creatorPid (side : Side) (n : ℕ) (inner : Inner α) :
    (side.setPeers n inner).creatorPid = inner.creatorPid := by
  cases side <;> rfl

namespace Op

/-- What a send carries. -/
def item? : Op α → Option α
  | .trySend item => some item
  | .trySendUntil item => some item
  | .trySendOnce item => some item
  | _ => none

end Op

/-! ## The moves -/

/-- Making a handle: `increase`, then the new value. -/
inductive MakeMoves (t : Tid) (m : Making) : MakePc → Shared α → Pc α → Shared α → Prop where
  | loadCounter {s : Shared α} :
      MakeMoves t m .loadCounter s (.make m (.swapPid (s.refs t.pid).counter)) s
  | samePid {count : ℕ} {s : Shared α} : (s.refs t.pid).pid = t.pid →
      MakeMoves t m (.swapPid count) s (.make m .addCounter)
        (s.setRefs t.pid { s.refs t.pid with pid := t.pid })
  | panic {s : Shared α} : (s.refs t.pid).pid ≠ t.pid →
      MakeMoves t m (.swapPid 0) s .idle
        ((s.setRefs t.pid { s.refs t.pid with pid := t.pid }).endBorrow t m.source)
  | otherPid {count : ℕ} {s : Shared α} : (s.refs t.pid).pid ≠ t.pid → count ≠ 0 →
      MakeMoves t m (.swapPid count) s (.make m (.resetCounter count))
        (s.setRefs t.pid { s.refs t.pid with pid := t.pid })
  | addCounter {s : Shared α} :
      MakeMoves t m .addCounter s (.make m .create)
        (s.setRefs t.pid
          { s.refs t.pid with counter := Usize.wrappingAdd (s.refs t.pid).counter 1 })
  | resetCounter {count : ℕ} {s : Shared α} :
      MakeMoves t m (.resetCounter count) s (.make m .create)
        (s.setRefs t.pid
          { s.refs t.pid with counter := Usize.wrappingSub (s.refs t.pid).counter (count - 1) })
  | create {s : Shared α} : MakeMoves t m .create s .idle (s.create t m)

/-- Dropping a handle. -/
inductive DropMoves (t : Tid) (d : Dropping) : DropPc → Shared α → Pc α → Shared α → Prop where
  | loadZero {side : Side} {s : Shared α} : side.peers s.inner = 0 →
      DropMoves t d (.load side) s (.drop d (.broadcast side false))
        (s.setPhase d.handle .released)
  | load {side : Side} {s : Shared α} : side.peers s.inner ≠ 0 →
      DropMoves t d (.load side) s (.drop d (.exchange side (side.peers s.inner))) s
  -- the decrement that brings the counter to zero
  | reachZero {side : Side} {s : Shared α} : side.peers s.inner - 1 = 0 →
      DropMoves t d (.exchange side (side.peers s.inner)) s (.drop d (.broadcast side true))
        ((s.setInner (side.setPeers (side.peers s.inner - 1) s.inner)).setPhase d.handle .released)
  | subtract {side : Side} {s : Shared α} : side.peers s.inner - 1 ≠ 0 →
      DropMoves t d (.exchange side (side.peers s.inner)) s (.drop d .checkPid)
        ((s.setInner (side.setPeers (side.peers s.inner - 1) s.inner)).setPhase d.handle .released)
  | exchangeZero {side : Side} {counter : ℕ} {s : Shared α} : side.peers s.inner = 0 →
      DropMoves t d (.exchange side counter) s (.drop d (.broadcast side false))
        (s.setPhase d.handle .released)
  | retry {side : Side} {counter : ℕ} {s : Shared α} : side.peers s.inner ≠ 0 →
      DropMoves t d (.exchange side counter) s (.drop d (.exchange side (side.peers s.inner))) s
  | broadcast {side : Side} {reached : Bool} {s : Shared α} :
      DropMoves t d (.broadcast side reached) s (.drop d .checkPid) s
  | foreign {s : Shared α} : d.originalPid ≠ t.pid →
      DropMoves t d .checkPid s .idle (s.setPhase d.handle .gone)
  | owner {s : Shared α} : d.originalPid = t.pid →
      DropMoves t d .checkPid s (.drop d .swapPid) s
  | samePid {s : Shared α} : (s.refs t.pid).pid = t.pid →
      DropMoves t d .swapPid s (.drop d .subCounter)
        (s.setRefs t.pid { s.refs t.pid with pid := t.pid })
  | otherPid {s : Shared α} : (s.refs t.pid).pid ≠ t.pid →
      DropMoves t d .swapPid s (.drop d .storeDropping)
        (s.setRefs t.pid { s.refs t.pid with pid := t.pid })
  | last {s : Shared α} : (s.refs t.pid).counter = 1 →
      DropMoves t d .subCounter s (.drop d .storeDropping)
        (s.setRefs t.pid
          { s.refs t.pid with counter := Usize.wrappingSub (s.refs t.pid).counter 1 })
  | moveAlong {s : Shared α} : (s.refs t.pid).counter ≠ 1 →
      DropMoves t d .subCounter s .idle
        ((s.setRefs t.pid
          { s.refs t.pid with
              counter := Usize.wrappingSub (s.refs t.pid).counter 1 }).setPhase d.handle .gone)
  | storeDropping {s : Shared α} :
      DropMoves t d .storeDropping s (.drop d .swapReceivers)
        (s.setInner { s.inner with dropping := true })
  | swapReceivers {s : Shared α} :
      DropMoves t d .swapReceivers s (.drop d (.swapSenders s.inner.receivers))
        (s.setInner { s.inner with receivers := 0 })
  | swapSenders {receivers : ℕ} {pc : DropPc} {s : Shared α} :
      pc = .broadcastItem s.inner.senders ∨ pc = .broadcastSpace ∨ pc = .lock →
      DropMoves t d (.swapSenders receivers) s (.drop d pc)
        (s.setInner { s.inner with senders := 0 })
  | broadcastItem {senders : ℕ} {pc : DropPc} {s : Shared α} :
      pc = .broadcastSpace ∨ pc = .lock →
      DropMoves t d (.broadcastItem senders) s (.drop d pc) s
  | broadcastSpace {s : Shared α} : DropMoves t d .broadcastSpace s (.drop d .lock) s
  | lock {pc : DropPc} {s : Shared α} : pc = .unlock ∨ pc = .checkCreator →
      DropMoves t d .lock s (.drop d pc) s
  | unlock {s : Shared α} : DropMoves t d .unlock s (.drop d .checkCreator) s
  | sameCreator {s : Shared α} : s.inner.creatorPid = t.pid →
      DropMoves t d .checkCreator s (.drop d .destroyMutex) s
  | otherCreator {s : Shared α} : s.inner.creatorPid ≠ t.pid →
      DropMoves t d .checkCreator s (.drop d .freeInner) s
  | destroyMutex {pc : DropPc} {s : Shared α} : pc = .dropQueue ∨ pc = .destroyCondvar .item →
      DropMoves t d .destroyMutex s (.drop d pc) s
  | dropQueue {s : Shared α} :
      DropMoves t d .dropQueue s (.drop d (.destroyCondvar .item))
        { s.setInner { s.inner with queue := { s.inner.queue with items := [] } } with
          queueFrees := s.queueFrees + 1 }
  | destroyCondvar {side : Side} {pc : DropPc} {s : Shared α} : pc = side.afterDestroy →
      DropMoves t d (.destroyCondvar side) s (.drop d pc) s
  | freeInner {s : Shared α} :
      DropMoves t d .freeInner s (.drop d .freeReferences)
        { s with innerFrees := s.innerFrees + 1 }
  | freeReferences {s : Shared α} :
      DropMoves t d .freeReferences s .idle
        { s.setPhase d.handle .gone with
          refsFrees := fun p => if p = t.pid then s.refsFrees p + 1 else s.refsFrees p }

/-- A move of thread `t` from a point and data to a point and data. -/
inductive Moves (grow : ℕ → Option ℕ) (t : Tid) : Pc α → Shared α → Pc α → Shared α → Prop where
  | asked {i : Input α} {s s' : Shared α} {l' : Pc α} :
      Asked t s i s' l' → Moves grow t .idle s l' s'
  | op {h : ℕ} {op : Op α} {pc pc' : OpPc α} {s s' : Shared α} :
      (op.action grow t pc).Goes s pc' s' → Moves grow t (.op h op pc) s (.op h op pc') s'
  | ret {h : ℕ} {op : Op α} {r : Ret α} {s : Shared α} :
      Moves grow t (.op h op (.ret r)) s .idle (s.finish t h op r)
  | make {m : Making} {pc : MakePc} {s s' : Shared α} {l' : Pc α} :
      MakeMoves t m pc s l' s' → Moves grow t (.make m pc) s l' s'
  | drop {d : Dropping} {pc : DropPc} {s s' : Shared α} {l' : Pc α} :
      DropMoves t d pc s l' s' → Moves grow t (.drop d pc) s l' s'

section Inversion

variable {grow : ℕ → Option ℕ} {t : Tid} {s s' : Shared α} {l l' : Pc α}

/-- An operation's actions are those of its function, until it returns. -/
theorem program_op {h : ℕ} {op : Op α} {pc : OpPc α} (hpc : ∀ r, pc ≠ .ret r) :
    program grow t (.op h op pc) = (op.action grow t pc).map (.op h op) := by
  cases pc with
  | ret r => exact absurd rfl (hpc r)
  | _ => rfl

theorem makeMoves_of_goes {m : Making} {pc : MakePc} (h : (make t m pc).Goes s l' s') :
    MakeMoves t m pc s l' s' := by
  cases pc with
  | swapPid count =>
    simp only [make, Action.Goes] at h
    split at h
    · next hpid =>
      cases h
      exact .samePid hpid
    · next hpid =>
      split at h
      · next hzero =>
        cases h
        subst hzero
        exact .panic hpid
      · next hcount =>
        cases h
        exact .otherPid hpid hcount
  | loadCounter =>
    cases h
    exact .loadCounter
  | addCounter =>
    cases h
    exact .addCounter
  | resetCounter count =>
    cases h
    exact .resetCounter
  | create =>
    cases h
    exact .create

theorem dropMoves_of_exchange {d : Dropping} {side : Side} {counter : ℕ} {spurious : Bool}
    (h : compareExchange d side counter spurious s = (s', l')) :
    DropMoves t d (.exchange side counter) s l' s' := by
  simp only [compareExchange] at h
  split at h
  · next hc =>
    obtain ⟨-, rfl⟩ := hc
    split at h
    · next hzero =>
      cases h
      exact .reachZero hzero
    · next hpos =>
      cases h
      exact .subtract hpos
  · split at h
    · next hzero =>
      cases h
      exact .exchangeZero hzero
    · next hpos =>
      cases h
      exact .retry hpos

theorem dropMoves_of_goes {d : Dropping} {pc : DropPc} (h : (drop t d pc).Goes s l' s') :
    DropMoves t d pc s l' s' := by
  cases pc with
  | load side =>
    simp only [drop, Action.Goes] at h
    split at h
    · next hzero =>
      cases h
      exact .loadZero hzero
    · next hpos =>
      cases h
      exact .load hpos
  | exchange side counter =>
    obtain ⟨i, hi⟩ := h
    cases i with
    | exchange spurious => exact dropMoves_of_exchange (Option.some.inj hi)
    | _ => cases hi
  | broadcast side reached =>
    obtain ⟨rfl, rfl⟩ := h
    exact .broadcast
  | checkPid =>
    simp only [drop, Action.Goes] at h
    split at h
    · next hpid =>
      cases h
      exact .foreign hpid
    · next hpid =>
      cases h
      exact .owner (not_not.mp hpid)
  | swapPid =>
    simp only [drop, Action.Goes] at h
    split at h
    · next hpid =>
      cases h
      exact .samePid hpid
    · next hpid =>
      cases h
      exact .otherPid hpid
  | subCounter =>
    simp only [drop, Action.Goes] at h
    split at h
    · next hlast =>
      cases h
      exact .last hlast
    · next hmore =>
      cases h
      exact .moveAlong hmore
  | storeDropping =>
    cases h
    exact .storeDropping
  | swapReceivers =>
    cases h
    exact .swapReceivers
  | swapSenders receivers =>
    simp only [drop, Action.Goes] at h
    split at h
    · cases h
      exact .swapSenders (Or.inl rfl)
    · split at h
      · cases h
        exact .swapSenders (Or.inr (Or.inl rfl))
      · cases h
        exact .swapSenders (Or.inr (Or.inr rfl))
  | broadcastItem senders =>
    obtain ⟨rfl, hl⟩ := h
    split at hl
    · subst hl
      exact .broadcastItem (Or.inl rfl)
    · subst hl
      exact .broadcastItem (Or.inr rfl)
  | broadcastSpace =>
    obtain ⟨rfl, rfl⟩ := h
    exact .broadcastSpace
  | lock =>
    obtain ⟨rfl, rfl | rfl⟩ := h
    · exact .lock (Or.inl rfl)
    · exact .lock (Or.inr rfl)
  | unlock =>
    obtain ⟨rfl, rfl⟩ := h
    exact .unlock
  | checkCreator =>
    simp only [drop, Action.Goes] at h
    split at h
    · next hpid =>
      cases h
      exact .sameCreator hpid
    · next hpid =>
      cases h
      exact .otherCreator hpid
  | destroyMutex =>
    obtain ⟨rfl, rfl | rfl⟩ := h
    · exact .destroyMutex (Or.inl rfl)
    · exact .destroyMutex (Or.inr rfl)
  | dropQueue =>
    cases h
    exact .dropQueue
  | destroyCondvar side =>
    obtain ⟨rfl, rfl⟩ := h
    exact .destroyCondvar rfl
  | freeInner =>
    cases h
    exact .freeInner
  | freeReferences =>
    cases h
    exact .freeReferences

/-- A drop goes on with the same value. -/
theorem DropMoves.dropping_eq {d d' : Dropping} {pc pc' : DropPc}
    (hm : DropMoves t d pc s (.drop d' pc') s') : d' = d := by
  cases hm <;> rfl

/-- A drop never waits. -/
theorem drop_ne_wait {d : Dropping} {pc : DropPc} {cv : Side} {next : Pc α}
    {late : Option (Pc α)} : drop t d pc ≠ .wait cv next late := by
  intro heq
  cases pc <;> cases heq

/-- Only operations wait. -/
theorem op_of_wait {l : Pc α} {cv : Side} {next : Pc α} {late : Option (Pc α)}
    (hwait : program grow t l = .wait cv next late) : ∃ k op pc, l = .op k op pc := by
  cases l with
  | idle => cases hwait
  | op k op pc => exact ⟨k, op, pc, rfl⟩
  | make m pc => cases pc <;> cases hwait
  | drop d pc => exact absurd hwait drop_ne_wait

/-- **What one step can do**: wherever the program goes, it makes one of the moves. -/
theorem moves_of_goes (h : (program grow t l).Goes s l' s') : Moves grow t l s l' s' := by
  cases l with
  | idle =>
    obtain ⟨i, hi⟩ := h
    exact .asked (client_cases hi)
  | op k op pc =>
    by_cases hpc : ∃ r, pc = .ret r
    · obtain ⟨r, rfl⟩ := hpc
      cases h
      exact .ret
    · rw [program_op fun r heq => hpc ⟨r, heq⟩] at h
      obtain ⟨pc', rfl, hgoes⟩ := Action.goes_map h
      exact .op hgoes
  | make m pc => exact .make (makeMoves_of_goes h)
  | drop d pc => exact .drop (dropMoves_of_goes h)

/-! ## Inside an operation -/

theorem goes_read {f : Inner α → OpPc α} {pc : OpPc α} :
    (read f).Goes s pc s' ↔ s' = s ∧ pc = f s.inner := by
  simp only [read, Action.Goes, Prod.mk.injEq, eq_comm]

theorem goes_push {item : α} {r : Ret α} {pc : OpPc α} :
    (Inner.push grow t item r).Goes s pc s' ↔
      s.pushBack grow t item = some s' ∧ pc = .notify r ∨
      s.pushBack grow t item = none ∧ s' = s ∧ pc = .unlock .panicked := by
  cases hp : s.pushBack grow t item <;> simp [Inner.push, Action.Goes, hp, eq_comm]

theorem goes_pop {f : α → Ret α} {none' pc : OpPc α} :
    (Inner.pop t f none').Goes s pc s' ↔
      (∃ item, s.popFront t = some (item, s') ∧ pc = .notify (f item)) ∨
      s.popFront t = none ∧ s' = s ∧ pc = none' := by
  cases hp : s.popFront t with
  | none => simp [Inner.pop, Action.Goes, hp, eq_comm]
  | some r =>
    obtain ⟨item, s₁⟩ := r
    simp only [Inner.pop, Action.Goes, hp, Prod.mk.injEq, Option.some.injEq, reduceCtorEq,
      false_and, or_false]
    constructor
    · rintro ⟨rfl, rfl⟩
      exact ⟨item, ⟨rfl, rfl⟩, rfl⟩
    · rintro ⟨item', ⟨rfl, rfl⟩, rfl⟩
      exact ⟨rfl, rfl⟩

/-- The points of an operation at which it waits are the sleeps. -/
theorem op_wait {op : Op α} {pc : OpPc α} {cv : Side} {next : OpPc α} {late : Option (OpPc α)}
    (h : op.action grow t pc = .wait cv next late) :
    pc = .sleep ∧ next = .testQueue false ∧ ∀ pc' ∈ late, pc' = .testQueue true := by
  cases op <;> cases pc <;> cases h <;> simp

/-- An operation establishes what holds wherever it goes, and what a wait needs at its predicate. -/
theorem op_establishes {op : Op α} {pc : OpPc α} {post asleep : OpPc α → Shared α → Prop}
    (hpost : ∀ pc' s', (op.action grow t pc).Goes s pc' s' → post pc' s')
    (hasleep : pc = .sleep → ∀ late, asleep (.testQueue late) s) :
    (op.action grow t pc).Establishes s post asleep := by
  cases hact : op.action grow t pc with
  | wait cv next late =>
    obtain ⟨hpc, rfl, hlate⟩ := op_wait hact
    refine ⟨hasleep hpc false, fun pc' hpc' => ?_⟩
    rw [hlate pc' hpc']
    exact hasleep hpc true
  | _ =>
    rw [hact] at hpost
    exact Action.establishes_of_goes (fun _ _ _ heq => by cases heq) hpost

/-- **What a thread establishes**: what holds wherever a move leads, and what a wait needs at its
predicate. -/
theorem program_establishes {post asleep : Pc α → Shared α → Prop}
    (hpost : ∀ l' s', Moves grow t l s l' s' → post l' s')
    (hasleep : ∀ h op late, l = .op h op .sleep → asleep (.op h op (.testQueue late)) s) :
    (program grow t l).Establishes s post asleep := by
  by_cases hop : ∃ h op pc, l = .op h op pc
  · obtain ⟨h, op, pc, rfl⟩ := hop
    by_cases hpc : ∃ r, pc = .ret r
    · obtain ⟨r, rfl⟩ := hpc
      exact hpost .idle _ .ret
    · rw [program_op fun r heq => hpc ⟨r, heq⟩, Action.establishes_map]
      refine op_establishes (fun pc' s' hgoes => hpost _ _ (.op hgoes)) fun hsleep late => ?_
      exact hasleep h op late (by rw [hsleep])
  · -- outside of operations nothing waits
    refine Action.establishes_of_goes (fun cv next late heq => ?_) fun l' s' hgoes =>
      hpost l' s' (moves_of_goes hgoes)
    cases l with
    | op h op pc => exact hop ⟨h, op, pc, rfl⟩
    | idle => cases heq
    | make m pc => cases pc <;> cases heq
    | drop d pc => cases pc <;> cases heq

/-- The operation pushes its item, or pops one. -/
def Op.Transfers (grow : ℕ → Option ℕ) (t : Tid) (op : Op α) (s s' : Shared α) : Prop :=
  (∃ item, op.item? = some item ∧ s.pushBack grow t item = some s') ∨
    op.kind = .receiver ∧ ∃ item, s.popFront t = some (item, s')

/-- An operation changes the data only where an item is transferred. -/
theorem op_transfer {op : Op α} {pc pc' : OpPc α} (h : (op.action grow t pc).Goes s pc' s') :
    s' = s ∨ pc = .transfer ∧ op.Transfers grow t s s' := by
  have hpush : ∀ {item : α} {r : Ret α}, (Inner.push grow t item r).Goes s pc' s' →
      s' = s ∨ s.pushBack grow t item = some s' := by
    intro item r hgoes
    rcases goes_push.mp hgoes with ⟨hs, -⟩ | ⟨-, rfl, -⟩
    · exact Or.inr hs
    · exact Or.inl rfl
  have hpop : ∀ {f : α → Ret α} {none' : OpPc α}, (Inner.pop t f none').Goes s pc' s' →
      s' = s ∨ ∃ item, s.popFront t = some (item, s') := by
    intro f none' hgoes
    rcases goes_pop.mp hgoes with ⟨item, hs, -⟩ | ⟨-, rfl, -⟩
    · exact Or.inr ⟨item, hs⟩
    · exact Or.inl rfl
  cases pc with
  | transfer =>
    cases op with
    | receive => exact (hpop h).imp_right fun hp => ⟨rfl, Or.inr ⟨rfl, hp⟩⟩
    | tryReceiveUntil => exact (hpop h).imp_right fun hp => ⟨rfl, Or.inr ⟨rfl, hp⟩⟩
    | tryReceiveOnce => exact (hpop h).imp_right fun hp => ⟨rfl, Or.inr ⟨rfl, hp⟩⟩
    | waitForMessageUntil => exact absurd h id
    | trySend item => exact (hpush h).imp_right fun hp => ⟨rfl, Or.inl ⟨item, rfl, hp⟩⟩
    | trySendUntil item => exact (hpush h).imp_right fun hp => ⟨rfl, Or.inl ⟨item, rfl, hp⟩⟩
    | trySendOnce item => exact (hpush h).imp_right fun hp => ⟨rfl, Or.inl ⟨item, rfl, hp⟩⟩
  | lock => cases op <;> exact Or.inl h.1
  | unlock r => cases op <;> exact Or.inl h.1
  | notify r => cases op <;> first | exact absurd h id | exact Or.inl h.1
  | _ => cases op <;> · cases h; try exact Or.inl rfl

theorem pushBack_inner {item : α} (h : s.pushBack grow t item = some s') :
    ∃ queue, s.inner.queue.pushBack grow item = some queue ∧
      s'.inner = { s.inner with queue } := by
  obtain ⟨queue, hqueue, rfl⟩ := Option.map_eq_some_iff.mp h
  exact ⟨queue, hqueue, rfl⟩

theorem popFront_inner {item : α} (h : s.popFront t = some (item, s')) :
    ∃ queue, s.inner.queue.popFront = some (item, queue) ∧
      s'.inner = { s.inner with queue } := by
  obtain ⟨⟨item', queue⟩, hqueue, heq⟩ := Option.map_eq_some_iff.mp h
  cases heq
  exact ⟨queue, hqueue, rfl⟩

/-- An operation changes nothing in `Inner` but the queue, and that while it holds the mutex. -/
theorem op_inner {op : Op α} {pc pc' : OpPc α} (h : (op.action grow t pc).Goes s pc' s') :
    s' = s ∨ pc.holding = true ∧ ∃ queue, s'.inner = { s.inner with queue } := by
  rcases op_transfer h with rfl | ⟨rfl, ⟨item, -, hs⟩ | ⟨-, item, hs⟩⟩
  · exact Or.inl rfl
  · obtain ⟨queue, -, hinner⟩ := pushBack_inner hs
    exact Or.inr ⟨rfl, queue, hinner⟩
  · obtain ⟨queue, -, hinner⟩ := popFront_inner hs
    exact Or.inr ⟨rfl, queue, hinner⟩

/-- **What a step does to a call**: it goes to another point, returns, or falls asleep. -/
theorem op_of_step {c c' : State α} {i : Event α} {h : ℕ} {op : Op α} {pc : OpPc α}
    (hstep : Step (program grow) c i c') (ht : c.threads i.mover = .running (.op h op pc)) :
    (∃ pc', c'.threads i.mover = .running (.op h op pc') ∧
      (op.action grow i.mover pc).Goes c.shared pc' c'.shared) ∨
    (∃ r, pc = .ret r ∧ c'.threads i.mover = .running .idle ∧
      c'.shared = c.shared.finish i.mover h op r) ∨
    pc = .sleep ∧ c'.shared = c.shared ∧
      ∃ cv next late, c'.threads i.mover = .blocked cv next late := by
  by_cases hpc : ∃ r, pc = .ret r
  · obtain ⟨r, rfl⟩ := hpc
    rcases hstep.goes ht with ⟨l', ht', hgoes⟩ | ⟨cv, next, late, hwait, -⟩
    · have heq := Prod.mk.inj (show (_, _) = (c'.shared, l') from hgoes)
      rw [← heq.2] at ht'
      exact Or.inr (Or.inl ⟨r, rfl, ht', heq.1.symm⟩)
    · cases hwait
  · have hnot : ∀ r, pc ≠ .ret r := fun r heq => hpc ⟨r, heq⟩
    rcases hstep.goes ht with ⟨l', ht', hgoes⟩ | ⟨cv, next, late, hwait, ht', hs⟩
    · rw [program_op hnot] at hgoes
      obtain ⟨pc', rfl, hgoes'⟩ := Action.goes_map hgoes
      exact Or.inl ⟨pc', ht', hgoes'⟩
    · rw [program_op hnot] at hwait
      refine Or.inr (Or.inr ⟨?_, hs, cv, next, late, ht'⟩)
      cases hact : op.action grow i.mover pc with
      | wait cv' next' late' => exact (op_wait hact).1
      | _ =>
        rw [hact] at hwait
        cases hwait

/-! ## Frames -/

/-- A drop begins with the counter, or with the channel. -/
theorem Asked.drop_pc {i : Input α} {d : Dropping} {pc : DropPc} (h : Asked t s i s' (.drop d pc)) :
    pc = .checkPid ∨ ∃ side, pc = .load side := by
  cases h with
  | @drop k v =>
    cases v.kind with
    | channel => exact Or.inl rfl
    | sender => exact Or.inr ⟨.item, rfl⟩
    | receiver => exact Or.inr ⟨.space, rfl⟩
  | destroy => exact Or.inl rfl

theorem Asked.inner {i : Input α} (h : Asked t s i s' l') : s'.inner = s.inner := by
  cases h <;> rfl

/-- `dropping` changes by the store of a teardown only. -/
theorem Moves.dropping (h : Moves grow t l s l' s') :
    (∃ d, l = .drop d .storeDropping ∧ s'.inner.dropping = true) ∨
      s'.inner.dropping = s.inner.dropping := by
  cases h with
  | asked ha => exact Or.inr (by rw [ha.inner])
  | op hgoes =>
    rcases op_inner hgoes with rfl | ⟨-, queue, hinner⟩
    · exact Or.inr rfl
    · exact Or.inr (by rw [hinner])
  | ret => exact Or.inr rfl
  | make hm => exact Or.inr (by cases hm <;> simp)
  | @drop d pc _ _ _ hdrop =>
    cases hdrop with
    | storeDropping => exact Or.inl ⟨d, rfl, rfl⟩
    | _ => exact Or.inr (by simp)

/-- `dropping` is never taken back. -/
theorem Moves.dropping_mono (h : Moves grow t l s l' s') (hd : s.inner.dropping = true) :
    s'.inner.dropping = true := by
  rcases h.dropping with ⟨-, -, hset⟩ | hsame
  · exact hset
  · rw [hsame]
    exact hd

/-- The mutex is always that of the process that made the channel. -/
theorem Moves.creatorPid (h : Moves grow t l s l' s') :
    s'.inner.creatorPid = s.inner.creatorPid := by
  cases h with
  | asked ha => rw [ha.inner]
  | op hgoes =>
    rcases op_inner hgoes with rfl | ⟨-, queue, hinner⟩
    · rfl
    · rw [hinner]
  | ret => rfl
  | make hm => cases hm <;> simp
  | drop hdrop => cases hdrop <;> simp

/-- The queue and `Inner` are freed in a teardown only. -/
theorem Moves.frees (h : Moves grow t l s l' s') :
    (s'.queueFrees = s.queueFrees ∧ s'.innerFrees = s.innerFrees) ∨
      ∃ d, l = .drop d .dropQueue ∨ l = .drop d .freeInner := by
  cases h with
  | asked ha => cases ha <;> exact Or.inl ⟨rfl, rfl⟩
  | op hgoes =>
    rcases op_transfer hgoes with rfl | ⟨-, ⟨item, -, hs⟩ | ⟨-, item, hs⟩⟩
    · exact Or.inl ⟨rfl, rfl⟩
    · obtain ⟨queue, -, rfl⟩ := Option.map_eq_some_iff.mp hs
      exact Or.inl ⟨rfl, rfl⟩
    · obtain ⟨r, -, heq⟩ := Option.map_eq_some_iff.mp hs
      cases heq
      exact Or.inl ⟨rfl, rfl⟩
  | ret => exact Or.inl ⟨rfl, rfl⟩
  | make hm => cases hm <;> exact Or.inl ⟨rfl, rfl⟩
  | @drop d pc _ _ _ hdrop =>
    cases hdrop with
    | dropQueue => exact Or.inr ⟨d, Or.inl rfl⟩
    | freeInner => exact Or.inr ⟨d, Or.inr rfl⟩
    | _ => exact Or.inl ⟨rfl, rfl⟩

/-- The queue changes by a transfer, or when it is dropped. -/
theorem Moves.queue (h : Moves grow t l s l' s') :
    (∃ k op, l = .op k op .transfer ∧ op.Transfers grow t s s') ∨
      (∃ d, l = .drop d .dropQueue ∧
        s'.inner.queue = { s.inner.queue with items := [] }) ∨
      s'.inner.queue = s.inner.queue := by
  cases h with
  | asked ha => exact Or.inr (Or.inr (by rw [ha.inner]))
  | @op k op pc _ _ _ hgoes =>
    rcases op_transfer hgoes with rfl | ⟨rfl, htransfers⟩
    · exact Or.inr (Or.inr rfl)
    · exact Or.inl ⟨k, op, rfl, htransfers⟩
  | ret => exact Or.inr (Or.inr rfl)
  | make hm => exact Or.inr (Or.inr (by cases hm <;> simp))
  | @drop d pc _ _ _ hdrop =>
    cases hdrop with
    | dropQueue => exact Or.inr (Or.inl ⟨d, rfl, rfl⟩)
    | _ => exact Or.inr (Or.inr (by simp))

end Inversion

end ShmemUtils.Channel
