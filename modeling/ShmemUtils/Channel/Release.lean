import ShmemUtils.Channel.Ownership

/-!
# What a teardown gives back

`Channel::drop` gives the box of `Inner` back, and through the drop of the mutex the queue with its
buffer. The mutex drops its data only in the process that created it, and `Channel::destroy`, which
makes the channel believe that the calling process owns it, leaves the mutex alone.
-/

namespace ShmemUtils.Channel

open ShmemUtils.Library ShmemUtils.Library.Monitor

variable {α : Type} {grow : ℕ → Option ℕ} {t u : Tid} {l l' : Pc α} {s s' s₀ : Shared α}
  {capacity n : ℕ} {c c' c₁ c₂ : State α} {i : Event α} {tr tr' : Trace α} {d : Dropping}
  {pc : DropPc}

/-! ## One thread at work -/

/-- Every thread but one is idle. -/
def OthersIdle (t : Tid) (c : State α) : Prop := ∀ u, u ≠ t → c.threads u = .running .idle

/-- While all other threads are idle, nobody holds the mutex but the thread itself. -/
theorem OthersIdle.owner (h : OthersIdle t c) (hexcl : Exclusive Pc.holding c)
    (ht : c.threads t = .running l) (hl : l.holding = false) : c.owner = none := by
  cases howner : c.owner with
  | none => rfl
  | some u =>
    obtain ⟨k, hk, hhold⟩ := hexcl.exists_running howner
    by_cases hu : u = t
    · subst hu
      cases ht.symm.trans hk
      rw [hl] at hhold
      cases hhold
    · cases (h u hu).symm.trans hk
      cases hhold

/-- While all other threads are idle, and the thread itself is awake, nobody waits. -/
theorem OthersIdle.running (h : OthersIdle t c) (ht : c.threads t = .running l) (u : Tid) :
    ∃ l, c.threads u = .running l := by
  by_cases hu : u = t
  · subst hu
    exact ⟨l, ht⟩
  · exact ⟨.idle, h u hu⟩

/-! ## How far a teardown has come -/

/-- Nothing has been given back since `s₀`. -/
structure Untouched (s₀ s : Shared α) : Prop where
  queue : s.inner.queue = s₀.inner.queue
  creatorPid : s.inner.creatorPid = s₀.inner.creatorPid
  queueFrees : s.queueFrees = s₀.queueFrees
  innerFrees : s.innerFrees = s₀.innerFrees

/-- The drop of the mutex is over since `s₀`. -/
def MutexDropped (t : Tid) (s₀ s : Shared α) : Prop :=
  if s₀.inner.creatorPid = t.pid then
    s.queueFrees = s₀.queueFrees + 1 ∧ s.inner.queue.items = []
  else s.queueFrees = s₀.queueFrees ∧ s.inner.queue = s₀.inner.queue

/-- The teardown of thread `t` is over since `s₀`. -/
def TornDown (t : Tid) (s₀ s : Shared α) : Prop :=
  MutexDropped t s₀ s ∧ s.innerFrees = s₀.innerFrees + 1

/-- What the teardown has given back at each of its points. -/
def DropPc.Releases (t : Tid) (s₀ s : Shared α) : DropPc → Prop
  | .storeDropping => Untouched s₀ s
  | .swapReceivers => Untouched s₀ s
  | .swapSenders _ => Untouched s₀ s
  | .broadcastItem _ => Untouched s₀ s
  | .broadcastSpace => Untouched s₀ s
  | .lock => Untouched s₀ s
  | .unlock => Untouched s₀ s
  | .checkCreator => Untouched s₀ s
  | .destroyMutex => Untouched s₀ s ∧ s₀.inner.creatorPid = t.pid
  | .dropQueue => Untouched s₀ s ∧ s₀.inner.creatorPid = t.pid
  | .destroyCondvar _ => MutexDropped t s₀ s ∧ s.innerFrees = s₀.innerFrees
  | .freeInner => MutexDropped t s₀ s ∧ s.innerFrees = s₀.innerFrees
  | .freeReferences => TornDown t s₀ s
  | _ => False

/-- **One step of a teardown**, while all other threads are idle. -/
theorem DropPc.Releases.step (h : pc.Releases t s₀ c.shared) (hsound : Sound c)
    (hothers : OthersIdle t c) (hstep : Step (program grow) c i c') (hi : i.mover = t)
    (ht : c.threads t = .running (.drop d pc)) :
    (∃ pc', c'.threads t = .running (.drop d pc') ∧ pc'.Releases t s₀ c'.shared) ∨
      c'.threads t = .running .idle ∧ TornDown t s₀ c'.shared := by
  subst hi
  rcases hstep.goes ht with ⟨l', ht', hgoes⟩ | ⟨cv, next, late, hwait, -⟩
  swap
  · exact absurd hwait drop_ne_wait
  rw [ht']
  generalize hs' : c'.shared = s' at hgoes ⊢
  cases pc with
  | storeDropping =>
    cases hgoes
    exact Or.inl ⟨_, rfl, h.queue, h.creatorPid, h.queueFrees, h.innerFrees⟩
  | swapReceivers =>
    cases hgoes
    exact Or.inl ⟨_, rfl, h.queue, h.creatorPid, h.queueFrees, h.innerFrees⟩
  | swapSenders receivers =>
    have huntouched : Untouched s₀ (c.shared.setInner { c.shared.inner with senders := 0 }) :=
      ⟨h.queue, h.creatorPid, h.queueFrees, h.innerFrees⟩
    obtain ⟨rfl, hl⟩ := Prod.mk.inj (show (_, _) = (s', l') from hgoes)
    split at hl
    · exact Or.inl ⟨_, congrArg _ hl.symm, huntouched⟩
    · split at hl
      · exact Or.inl ⟨_, congrArg _ hl.symm, huntouched⟩
      · exact Or.inl ⟨_, congrArg _ hl.symm, huntouched⟩
  | broadcastItem senders =>
    obtain ⟨rfl, hl⟩ := hgoes
    split at hl
    · exact Or.inl ⟨_, congrArg _ hl, h⟩
    · exact Or.inl ⟨_, congrArg _ hl, h⟩
  | broadcastSpace =>
    obtain ⟨rfl, rfl⟩ := hgoes
    exact Or.inl ⟨_, rfl, h⟩
  | lock =>
    obtain ⟨rfl, rfl | rfl⟩ := hgoes
    · exact Or.inl ⟨_, rfl, h⟩
    · exact Or.inl ⟨_, rfl, h⟩
  | unlock =>
    obtain ⟨rfl, rfl⟩ := hgoes
    exact Or.inl ⟨_, rfl, h⟩
  | checkCreator =>
    obtain ⟨rfl, hl⟩ := Prod.mk.inj (show (_, _) = (s', l') from hgoes)
    split at hl
    · next hpid =>
      exact Or.inl ⟨_, congrArg _ hl.symm, h, h.creatorPid.symm.trans hpid⟩
    · next hpid =>
      -- the drop of the mutex returns at once
      refine Or.inl ⟨_, congrArg _ hl.symm, ?_, h.innerFrees⟩
      rw [MutexDropped, if_neg (by rwa [← h.creatorPid])]
      exact ⟨h.queueFrees, h.queue⟩
  | destroyMutex =>
    -- nobody holds the mutex or waits, so it is destroyed
    obtain ⟨hs, hfree⟩ := hstep.of_probe ht rfl
    rw [if_pos (Config.unused_iff.mpr ⟨hothers.owner hsound.exclusive ht rfl,
      hsound.counted.waiting_eq_nil (hothers.running ht)⟩)] at hfree
    rw [← hs', hs]
    exact Or.inl ⟨_, ht'.symm.trans hfree, h⟩
  | dropQueue =>
    cases hgoes
    refine Or.inl ⟨_, rfl, ?_, h.1.innerFrees⟩
    rw [MutexDropped, if_pos h.2]
    exact ⟨congrArg (· + 1) h.1.queueFrees, rfl⟩
  | destroyCondvar side =>
    obtain ⟨rfl, rfl⟩ := hgoes
    cases side <;> exact Or.inl ⟨_, rfl, h⟩
  | freeInner =>
    cases hgoes
    exact Or.inl ⟨_, rfl, h.1, congrArg (· + 1) h.2⟩
  | freeReferences =>
    cases hgoes
    exact Or.inr ⟨rfl, h⟩
  | _ => exact h.elim

/-! ## A teardown comes to its end -/

namespace DropPc

/-- A bound on the steps that are left of a drop. -/
def rank : DropPc → ℕ
  | .checkPid => 16
  | .swapPid => 15
  | .subCounter => 14
  | .storeDropping => 13
  | .swapReceivers => 12
  | .swapSenders _ => 11
  | .broadcastItem _ => 10
  | .broadcastSpace => 9
  | .lock => 8
  | .unlock => 7
  | .checkCreator => 6
  | .destroyMutex => 5
  | .dropQueue => 4
  | .destroyCondvar .item => 3
  | .destroyCondvar .space => 2
  | .freeInner => 1
  | .freeReferences => 0
  | _ => 17

end DropPc

/-- A bound on the steps that are left of the drop that thread `t` is in. -/
def dropRank (t : Tid) (c : State α) : ℕ :=
  match c.threads t with
  | .running (.drop _ pc) => pc.rank + 1
  | _ => 0

theorem dropRank_of_drop (ht : c.threads t = .running (.drop d pc)) :
    dropRank t c = pc.rank + 1 := by
  rw [dropRank, ht]

/-- A drop that has come nearer to its end. -/
theorem dropRank_le (h : ∀ d pc, c.threads t = .running (.drop d pc) → pc.rank < n) :
    dropRank t c ≤ n := by
  unfold dropRank
  split
  · next d pc ht => exact h d pc ht
  · exact Nat.zero_le n

/-- From the comparison of the pids on, a drop only comes nearer to its end. -/
theorem DropMoves.rank_lt {d' : Dropping} {pc' : DropPc}
    (h : DropMoves t d pc s (.drop d' pc') s') (hpc : pc.rank < 17) : pc'.rank < pc.rank := by
  cases h with
  | loadZero => exact absurd hpc (Nat.lt_irrefl 17)
  | load => exact absurd hpc (Nat.lt_irrefl 17)
  | reachZero => exact absurd hpc (Nat.lt_irrefl 17)
  | subtract => exact absurd hpc (Nat.lt_irrefl 17)
  | exchangeZero => exact absurd hpc (Nat.lt_irrefl 17)
  | retry => exact absurd hpc (Nat.lt_irrefl 17)
  | broadcast => exact absurd hpc (Nat.lt_irrefl 17)
  | swapSenders hnext => rcases hnext with rfl | rfl | rfl <;> simp [DropPc.rank]
  | broadcastItem hnext => rcases hnext with rfl | rfl <;> simp [DropPc.rank]
  | lock hnext => rcases hnext with rfl | rfl <;> simp [DropPc.rank]
  | destroyMutex hnext => rcases hnext with rfl | rfl <;> simp [DropPc.rank]
  | @destroyCondvar side _ _ hnext =>
    subst hnext
    cases side <;> simp [DropPc.rank, Side.afterDestroy]
  | _ => simp [DropPc.rank]

/-- A drop waits for nobody but the one who holds the mutex and those who are registered. -/
theorem exists_step_of_drop (grow : ℕ → Option ℕ) (hexcl : Exclusive Pc.holding c)
    (hfree : pc = .lock → c.owner = none)
    (hnobody : ∀ side, pc = .destroyCondvar side → c.waiters side = [])
    (ht : c.threads t = .running (.drop d pc)) (hpc : pc.rank < 17) :
    ∃ c', Step (program grow) c (.run t) c' := by
  cases pc with
  | load side => exact absurd hpc (Nat.lt_irrefl 17)
  | exchange side counter => exact absurd hpc (Nat.lt_irrefl 17)
  | broadcast side reached => exact absurd hpc (Nat.lt_irrefl 17)
  | broadcastItem senders => exact ⟨_, .broadcast ht rfl⟩
  | broadcastSpace => exact ⟨_, .broadcast ht rfl⟩
  | lock => exact ⟨_, .timedLock ht rfl (hfree rfl)⟩
  | unlock => exact ⟨_, .unlock ht rfl ((hexcl.of_running ht).1.mpr rfl)⟩
  | destroyMutex => exact ⟨_, .probe ht rfl⟩
  | destroyCondvar side => exact ⟨_, .drain ht rfl (hnobody side rfl)⟩
  | _ => exact ⟨_, .atomic ht rfl⟩

/-- While all other threads are idle, a drop waits for nobody. -/
theorem OthersIdle.exists_step_of_drop (h : OthersIdle t c) (grow : ℕ → Option ℕ)
    (hexcl : Exclusive Pc.holding c) (ht : c.threads t = .running (.drop d pc))
    (hpc : pc.rank < 17) : ∃ c', Step (program grow) c (.run t) c' := by
  refine Channel.exists_step_of_drop grow hexcl (fun heq => ?_) (fun side _ => ?_) ht hpc
  · exact h.owner hexcl ht (by rw [heq]; rfl)
  · exact hexcl.waiters_eq_nil (h.running ht) side

theorem DropPc.Releases.rank_lt (h : pc.Releases t s₀ s) : pc.rank < 17 := by
  cases pc with
  | destroyCondvar side => cases side <;> simp [DropPc.rank]
  | _ => first | exact h.elim | simp [DropPc.rank]

/-- Every step of the drop lowers its rank. -/
theorem dropRank_lt (hstep : Step (program grow) c i c') (hmover : i.mover = t)
    (ht : c.threads t = .running (.drop d pc)) (hpc : pc.rank < 17) :
    dropRank t c' < dropRank t c := by
  subst hmover
  rw [dropRank_of_drop ht, Nat.lt_succ_iff]
  refine dropRank_le fun d' pc' ht' => ?_
  rcases hstep.goes ht with ⟨l', hl', hgoes⟩ | ⟨cv, next, late, hwait, -⟩
  · cases hl'.symm.trans ht'
    exact (dropMoves_of_goes hgoes).rank_lt hpc
  · exact absurd hwait drop_ne_wait

/-! ## Destroying a channel -/

namespace PerProcessReferences

/-- `decrease` returns `YouAreTheLastOne`. -/
def LastIn (r : PerProcessReferences) (pid : ℕ) : Prop := r.pid = pid → r.counter = 1

end PerProcessReferences

namespace Label

/-- A client asks for nothing but a fork. -/
def forksOnly : Event α → Bool
  | .ask _ .fork => true
  | .ask _ _ => false
  | _ => true

end Label

/-- Both blocks that `Channel::new` took have been given back once, and nothing is queued. -/
def Released (s : Shared α) : Prop :=
  s.queueFrees = 1 ∧ s.innerFrees = 1 ∧ s.inner.queue.items = []

/-- Where a thread is that destroys the last channel of its process. -/
def Destroys (t : Tid) (s₀ s : Shared α) : Pc α → Prop
  | .idle => TornDown t s₀ s
  | .drop d .checkPid => Untouched s₀ s ∧ d.originalPid = t.pid ∧ (s.refs t.pid).LastIn t.pid
  | .drop _ .swapPid => Untouched s₀ s ∧ (s.refs t.pid).LastIn t.pid
  | .drop _ .subCounter => Untouched s₀ s ∧ (s.refs t.pid).counter = 1
  | .drop _ pc => pc.Releases t s₀ s
  | _ => False

/-- What is kept while thread `t` destroys a channel and no other handle is used. -/
structure Destroying (t : Tid) (s₀ : Shared α) (c : State α) : Prop where
  owned : Owned c
  others : OthersIdle t c
  self : ∃ l, c.threads t = .running l ∧ Destroys t s₀ c.shared l

theorem Untouched.fork {pid : ℕ} (h : Untouched s₀ s) : Untouched s₀ (s.fork pid) :=
  ⟨h.queue, h.creatorPid, h.queueFrees, h.innerFrees⟩

/-- A fork leaves the destruction alone. -/
theorem Destroys.fork {pid : ℕ} (h : Destroys t s₀ s l) (ht : t.pid ≠ s.nextPid) :
    Destroys t s₀ (s.fork pid) l := by
  have hrefs : (s.fork pid).refs t.pid = s.refs t.pid := if_neg ht
  cases l with
  | idle => exact h
  | op => exact h.elim
  | make => exact h.elim
  | drop d pc =>
    cases pc with
    | checkPid =>
      refine ⟨h.1.fork, h.2.1, ?_⟩
      rw [hrefs]
      exact h.2.2
    | swapPid =>
      refine ⟨h.1.fork, ?_⟩
      rw [hrefs]
      exact h.2
    | subCounter =>
      refine ⟨h.1.fork, ?_⟩
      rw [hrefs]
      exact h.2
    | load => exact h.elim
    | exchange => exact h.elim
    | broadcast => exact h.elim
    | destroyMutex => exact ⟨h.1.fork, h.2⟩
    | dropQueue => exact ⟨h.1.fork, h.2⟩
    | destroyCondvar => exact h
    | freeInner => exact h
    | freeReferences => exact h
    | _ => exact Untouched.fork h

/-- An idle thread that may only fork does so. -/
theorem fork_of_idle (hstep : Step (program grow) c i c') (ht : c.threads i.mover = .running .idle)
    (hi : Label.forksOnly i = true) :
    c'.threads i.mover = .running .idle ∧ c'.shared = c.shared.fork i.mover.pid := by
  obtain ⟨input, l', heq, hclient, ht'⟩ := hstep.of_ask ht rfl
  rw [heq] at hi
  generalize c'.shared = s' at hclient ⊢
  cases client_cases hclient with
  | fork => exact ⟨ht', rfl⟩
  | _ => cases hi

/-- Before the teardown there is the decrease. -/
theorem Destroys.releases (h : Destroys t s₀ s (.drop d pc)) :
    (pc = .checkPid ∨ pc = .swapPid ∨ pc = .subCounter) ∨ pc.Releases t s₀ s := by
  cases pc with
  | checkPid => exact Or.inl (Or.inl rfl)
  | swapPid => exact Or.inl (Or.inr (Or.inl rfl))
  | subCounter => exact Or.inl (Or.inr (Or.inr rfl))
  | _ => exact Or.inr h

/-- The decrease finds the last reference. -/
theorem Destroys.decrease {s₁ : Shared α} (h : Destroys t s₀ s (.drop d pc))
    (hpc : pc = .checkPid ∨ pc = .swapPid ∨ pc = .subCounter) (hm : DropMoves t d pc s l' s₁) :
    ∃ pc', l' = .drop d pc' ∧ Destroys t s₀ s₁ (.drop d pc') := by
  rcases hpc with rfl | rfl | rfl
  · cases hm with
    | foreign hne => exact absurd h.2.1 hne
    | owner => exact ⟨_, rfl, h.1, h.2.2⟩
  · have huntouched : Untouched s₀ (s.setRefs t.pid { s.refs t.pid with pid := t.pid }) :=
      ⟨h.1.queue, h.1.creatorPid, h.1.queueFrees, h.1.innerFrees⟩
    cases hm with
    | samePid hpid =>
      refine ⟨_, rfl, huntouched, ?_⟩
      show (if t.pid = t.pid then _ else _ : PerProcessReferences).counter = 1
      rw [if_pos rfl]
      exact h.2 hpid
    | otherPid => exact ⟨_, rfl, huntouched⟩
  · cases hm with
    | last =>
      exact ⟨_, rfl, h.1.queue, h.1.creatorPid, h.1.queueFrees, h.1.innerFrees⟩
    | moveAlong hne => exact absurd h.2 hne

theorem Destroying.step (h : Destroying t s₀ c) (hi : Label.forksOnly i = true)
    (hstep : Step (program grow) c i c') : Destroying t s₀ c' := by
  obtain ⟨l, ht, hl⟩ := h.self
  by_cases hmover : i.mover = t
  · subst hmover
    refine ⟨h.owned.step hstep, fun u hu => (hstep.others hu).trans (h.others u hu), ?_⟩
    cases l with
    | idle =>
      obtain ⟨ht', hs⟩ := fork_of_idle hstep ht hi
      refine ⟨_, ht', ?_⟩
      rw [hs]
      exact hl
    | op => exact hl.elim
    | make => exact hl.elim
    | drop d pc =>
      rcases hl.releases with hpc | hreleases
      · rcases hstep.goes ht with ⟨l', ht', hgoes⟩ | ⟨cv, next, late, hwait, -⟩
        · obtain ⟨pc', rfl, hnext⟩ := hl.decrease hpc (dropMoves_of_goes hgoes)
          exact ⟨_, ht', hnext⟩
        · exact absurd hwait drop_ne_wait
      · rcases hreleases.step h.owned.sound h.others hstep rfl ht with
          ⟨pc', ht', hnext⟩ | ⟨ht', hdone⟩
        · refine ⟨_, ht', ?_⟩
          cases pc' <;> first | exact hnext | exact hnext.elim
        · exact ⟨_, ht', hdone⟩
  · -- another thread forks
    obtain ⟨hidle, hs⟩ := fork_of_idle hstep (h.others _ hmover) hi
    have hself : c'.threads t = c.threads t := hstep.others (Ne.symm hmover)
    refine ⟨h.owned.step hstep, fun u hu => ?_, l, hself.trans ht, ?_⟩
    · by_cases heq : u = i.mover
      · rw [heq]
        exact hidle
      · exact (hstep.others heq).trans (h.others u hu)
    · rw [hs]
      by_cases hidle₀ : l = .idle
      · subst hidle₀
        exact hl
      · refine hl.fork (Nat.ne_of_lt ?_)
        cases l with
        | idle => exact absurd rfl hidle₀
        | op => exact hl.elim
        | make => exact hl.elim
        | drop d pc =>
          obtain ⟨v, hv, hproc, -⟩ := h.owned.holds.running ht
          rw [← hproc]
          exact (h.owned.holds.global v (List.mem_of_getElem? hv)).1

/-- The request begins the destruction. -/
theorem destroying_of_request (h : Owned c) (hidle : ∀ u, c.threads u = .running .idle)
    (hlast : (c.shared.refs t.pid).LastIn t.pid) {k : ℕ}
    (hstep : Step (program grow) c (.ask t (.destroy k)) c') : Destroying t c.shared c' := by
  refine ⟨h.step hstep, fun u hu => (hstep.others hu).trans (hidle u), ?_⟩
  obtain ⟨input, l', heq, hclient, ht'⟩ := hstep.of_ask (hidle t) rfl
  cases heq
  refine ⟨l', ht', ?_⟩
  generalize c'.shared = s' at hclient
  cases client_cases hclient with
  | destroy => exact ⟨⟨rfl, rfl, rfl, rfl⟩, rfl, hlast⟩

/-- A destruction comes to its end. -/
theorem Destroying.finishes (hrun : Run (Step (program grow)) c₁ tr c) (h : Destroying t s₀ c)
    (hok : Throughout (fun _ i => Label.forksOnly i = true) tr) :
    ∃ tr' c', Run (Step (program grow)) c₁ tr' c' ∧
      Throughout (fun _ i => Label.forksOnly i = true) tr' ∧ tr <:+ tr' ∧ Destroying t s₀ c' ∧
        c'.threads t = .running .idle := by
  refine hrun.reaches (dropRank t) (fun {c} h hidle => ?_) hok h
  obtain ⟨l, ht, hl⟩ := h.self
  cases l with
  | idle => exact absurd ht hidle
  | op => exact hl.elim
  | make => exact hl.elim
  | drop d pc =>
    have hpc : pc.rank < 17 := by
      rcases hl.releases with (rfl | rfl | rfl) | hreleases
      · decide
      · decide
      · decide
      · exact hreleases.rank_lt
    obtain ⟨c', hstep⟩ := h.others.exists_step_of_drop grow h.owned.sound.exclusive ht hpc
    exact ⟨_, c', rfl, hstep, h.step rfl hstep, dropRank_lt hstep rfl ht hpc⟩

/-! ## What has been given back before -/

/-- Between the drop of the queue and that of the box of `Inner`. -/
def DropPc.afterQueue : DropPc → Bool
  | .destroyCondvar _ => true
  | .freeInner => true
  | _ => false

/-- The queue is dropped before the box of `Inner`, by the same thread. -/
def QueueFirst (c : State α) : Prop :=
  c.shared.queueFrees ≠ 0 → c.shared.innerFrees ≠ 0 ∨
    ∃ u d pc, c.threads u = .running (.drop d pc) ∧ pc.afterQueue = true

/-- Whoever has dropped the queue goes on to the box, and frees it. -/
theorem DropMoves.afterQueue {d : Dropping} {pc : DropPc} (hm : DropMoves t d pc s l' s')
    (hpc : pc.afterQueue = true) :
    s'.innerFrees ≠ 0 ∨ ∃ pc', l' = .drop d pc' ∧ pc'.afterQueue = true := by
  cases hm with
  | @destroyCondvar side _ _ hnext =>
    refine Or.inr ⟨_, rfl, ?_⟩
    subst hnext
    cases side <;> rfl
  | freeInner => exact Or.inl (Nat.succ_ne_zero _)
  | _ => cases hpc

theorem QueueFirst.step (h : QueueFirst c) (hstep : Step (program grow) c i c') :
    QueueFirst c' := by
  intro hfrees
  -- whoever is about to free the box is still there, unless it is the thread that moves
  have hstays : (∀ d pc, c.threads i.mover = .running (.drop d pc) → pc.afterQueue = false) →
      (∃ u d pc, c.threads u = .running (.drop d pc) ∧ pc.afterQueue = true) →
        ∃ u d pc, c'.threads u = .running (.drop d pc) ∧ pc.afterQueue = true := by
    rintro hnot ⟨u, d, pc, hu, hpc⟩
    refine ⟨u, d, pc, ?_, hpc⟩
    rw [hstep.others fun heq => ?_]
    · exact hu
    · rw [hnot d pc (heq ▸ hu)] at hpc
      cases hpc
  rcases hstep.moves with ⟨l, l', hl, hl', hgoes⟩ | ⟨hs, hwait⟩
  · by_cases hafter : ∃ d pc, l = .drop d pc ∧ pc.afterQueue = true
    · obtain ⟨d, pc, rfl, hpc⟩ := hafter
      rcases (dropMoves_of_goes hgoes).afterQueue hpc with hinner | ⟨pc', rfl, hpc'⟩
      · exact Or.inl hinner
      · exact Or.inr ⟨_, d, pc', hl', hpc'⟩
    have hnot : ∀ d pc, c.threads i.mover = .running (.drop d pc) → pc.afterQueue = false := by
      intro d pc hd
      cases hl.symm.trans hd
      exact Bool.eq_false_iff.mpr fun hpc => hafter ⟨d, pc, rfl, hpc⟩
    rcases (moves_of_goes hgoes).frees with ⟨hqueue, hinner⟩ | ⟨d, rfl | rfl⟩
    · rw [hqueue] at hfrees
      rw [hinner]
      exact (h hfrees).imp_right (hstays hnot)
    · right
      generalize c'.shared = s' at hgoes
      cases hgoes
      exact ⟨i.mover, d, _, hl', rfl⟩
    · exact absurd ⟨d, _, rfl, rfl⟩ hafter
  · rw [hs] at hfrees ⊢
    refine (h hfrees).imp_right (hstays fun d pc hd => ?_)
    obtain ⟨cv, next, late, heq⟩ := hwait _ hd
    exact absurd heq drop_ne_wait

theorem queueFrees_of_idle (hrun : Run (Step (program grow)) (initial capacity) tr c)
    (hidle : ∀ u, c.threads u = .running .idle) (hfrees : c.shared.innerFrees = 0) :
    c.shared.queueFrees = 0 := by
  have hfirst : QueueFirst c :=
    hrun.invariant' (fun hne => absurd rfl hne) fun h hstep => h.step hstep
  by_contra hne
  rcases hfirst hne with hinner | ⟨u, d, pc, hu, -⟩
  · exact hinner hfrees
  · cases (hidle u).symm.trans hu

theorem released_iff (h : TornDown t s₀ s) (hfrees : s₀.innerFrees = 0 → s₀.queueFrees = 0) :
    Released s ↔ s₀.inner.creatorPid = t.pid ∧ s₀.innerFrees = 0 := by
  obtain ⟨hmutex, hinner⟩ := h
  unfold MutexDropped at hmutex
  constructor
  · rintro ⟨hqueue, hbox, -⟩
    have hzero : s₀.innerFrees = 0 := Nat.succ.inj (hinner.symm.trans hbox)
    refine ⟨?_, hzero⟩
    by_contra hpid
    rw [if_neg hpid, hfrees hzero, hqueue] at hmutex
    cases hmutex.1
  · rintro ⟨hpid, hzero⟩
    rw [if_pos hpid, hfrees hzero] at hmutex
    rw [hzero] at hinner
    exact ⟨hmutex.1, hinner, hmutex.2⟩

/-! ## The only remaining handle -/

/-- A channel is the only handle that remains: no thread is inside a call, and in the steps that
follow the other handles are not used again, if there are any. -/
structure Sole (c : State α) (tr : Trace α) : Prop where
  idle : ∀ u, c.threads u = .running .idle
  unused : Throughout (fun _ i => Label.forksOnly i = true) tr

/-- No handle can be used. -/
def Dead (s : Shared α) : Prop := ∀ v ∈ s.handles, v.isLive = false

theorem Dead.setPhase {k : ℕ} {phase : Phase} (h : Dead s) (hphase : ∀ users, phase ≠ .live users) :
    Dead (s.setPhase k phase) := by
  refine forall_modifyHandle h fun v _ _ => ?_
  unfold Handle.isLive
  split
  · next users heq => exact absurd heq (hphase users)
  · rfl

/-- A fork copies no handle that is dead. -/
theorem Dead.fork {pid : ℕ} (h : Dead s) : Dead (s.fork pid) := by
  intro v hv
  rcases List.mem_append.mp hv with hold | hnew
  · exact h v hold
  · obtain ⟨w, hw, -⟩ := List.mem_map.mp hnew
    obtain ⟨hmem, hfilter⟩ := List.mem_filter.mp hw
    rw [h w hmem, Bool.and_false] at hfilter
    cases hfilter

theorem Dead.drop (h : Dead s) (hm : DropMoves t d pc s l' s') : Dead s' := by
  have hgone : Dead (s.setPhase d.handle .gone) := h.setPhase fun users heq => by cases heq
  have hreleased : Dead (s.setPhase d.handle .released) :=
    h.setPhase fun users heq => by cases heq
  cases hm with
  | loadZero => exact hreleased
  | reachZero => exact hreleased
  | subtract => exact hreleased
  | exchangeZero => exact hreleased
  | foreign => exact hgone
  | moveAlong => exact hgone
  | freeReferences => exact hgone
  | _ => exact h

/-- Without a handle that can be used, a client can ask for nothing but a fork. -/
theorem Dead.asked {input : Input α} (h : Dead s) (ha : Asked t s input s' l') :
    input = .fork := by
  have hnot : ∀ {k : ℕ} {v : Handle}, s.handles[k]? = some v → ¬ v.isLive = true := by
    intro k v hv hlive
    rw [h v (List.mem_of_getElem? hv)] at hlive
    cases hlive
  cases ha with
  | call hv _ _ _ hlive => exact absurd hlive (hnot hv)
  | make hv _ hlive => exact absurd hlive (hnot hv)
  | drop hv _ hphase => exact absurd (Handle.isLive_of_phase hphase) (hnot hv)
  | destroy hv _ hphase => exact absurd (Handle.isLive_of_phase hphase) (hnot hv)
  | fork => rfl

/-- In a state without usable handles the destruction goes on undisturbed. -/
theorem Destroying.forksOnly (h : Destroying t s₀ c) (hdead : Dead c.shared)
    (hstep : Step (program grow) c i c') : Label.forksOnly i = true ∧ Dead c'.shared := by
  have hask : c.threads i.mover = .running .idle →
      Label.forksOnly i = true ∧ Dead c'.shared := by
    intro ht
    obtain ⟨input, l', heq, hclient, -⟩ := hstep.of_ask ht rfl
    cases hdead.asked (client_cases hclient)
    have hi : Label.forksOnly i = true := by rw [heq]; rfl
    rw [(fork_of_idle hstep ht hi).2]
    exact ⟨hi, hdead.fork⟩
  by_cases hmover : i.mover = t
  swap
  · exact hask (h.others _ hmover)
  subst hmover
  obtain ⟨l, ht, hl⟩ := h.self
  cases l with
  | idle => exact hask ht
  | op => exact hl.elim
  | make => exact hl.elim
  | drop d pc =>
    constructor
    · cases hstep with
      | ask ht' ha =>
        cases ht'.symm.trans ht
        cases pc with
        | exchange side counter => exact hl.elim
        | _ => cases ha
      | _ => rfl
    · rcases hstep.goes ht with ⟨l', -, hgoes⟩ | ⟨cv, next, late, hwait, -⟩
      · exact hdead.drop (dropMoves_of_goes hgoes)
      · exact absurd hwait drop_ne_wait

/-- A thread that borrows no handle of its process and drops none is idle. -/
theorem idle_of_unneeded (h : Owned c)
    (hunused : ∀ {j : ℕ} {w : Handle} {users : List Tid}, c.shared.handles[j]? = some w →
      w.proc = u.pid → w.phase = .live users → ¬ u ∈ users)
    (hdrops : ∀ d pc, c.threads u ≠ .running (.drop d pc)) : c.threads u = .running .idle := by
  have hasleep : ∀ {l : Pc α}, ¬ ownershipOutline.asleep u l c.shared := by
    rintro l ⟨⟨j, op, pc, rfl⟩, w, users, hw, hproc, -, hlive, hmem⟩
    exact hunused hw hproc hlive hmem
  have hat := h.holds.at_ u
  cases hu : c.threads u with
  | blocked cv next late =>
    rw [hu] at hat
    exact absurd hat.1 hasleep
  | woken next =>
    rw [hu] at hat
    exact absurd hat hasleep
  | running l =>
    rw [hu] at hat
    cases l with
    | idle => rfl
    | op j op pc =>
      obtain ⟨w, users, hw, hproc, -, hlive, hmem⟩ := hat
      exact absurd hmem (hunused hw hproc hlive)
    | make m pc =>
      obtain ⟨w, users, hw, hproc, -, hlive, hmem⟩ := hat
      exact absurd hmem (hunused hw hproc hlive)
    | drop d pc => exact absurd hu (hdrops d pc)

/-- When all handles but one are gone, a thread that neither borrows nor drops this one is idle. -/
theorem idle_of_rest_gone {k : ℕ} {v : Handle} (h : Owned c)
    (hv : c.shared.handles[k]? = some v)
    (hgone : ∀ j w, j ≠ k → c.shared.handles[j]? = some w → w.phase = .gone)
    (hunused : ∀ users, v.phase = .live users → ¬ u ∈ users)
    (hdrops : ∀ d pc, c.threads u = .running (.drop d pc) → d.handle ≠ k) :
    c.threads u = .running .idle := by
  apply idle_of_unneeded h
  · intro j w users hw _ hlive
    by_cases hj : j = k
    · subst hj
      cases hv.symm.trans hw
      exact hunused users hlive
    · cases (hgone j w hj hw).symm.trans hlive
  · intro d pc hu
    obtain ⟨w, hw, -, -, hcloses⟩ := h.holds.running hu
    exact hcloses.not_gone (hgone _ w (hdrops d pc hu) hw)

/-- When the other handles are gone nobody is inside a call. -/
theorem idle_of_gone {k : ℕ} {v : Handle} (h : Owned c) (hv : c.shared.handles[k]? = some v)
    (hphase : v.phase = .live [])
    (hgone : ∀ j w, j ≠ k → c.shared.handles[j]? = some w → w.phase = .gone) (u : Tid) :
    c.threads u = .running .idle := by
  apply idle_of_rest_gone h hv hgone
  · intro users hlive hmem
    cases hphase.symm.trans hlive
    cases hmem
  · intro d pc hu heq
    obtain ⟨w, hw, -, -, hcloses⟩ := h.holds.running hu
    rw [heq] at hw
    cases hv.symm.trans hw
    exact hcloses.ne_live [] hphase

/-- **A handle is the only one that remains when all others are gone.** -/
theorem sole_of_gone {k : ℕ} {v : Handle} (h : Owned c) (hv : c.shared.handles[k]? = some v)
    (hphase : v.phase = .live [])
    (hgone : ∀ j w, j ≠ k → c.shared.handles[j]? = some w → w.phase = .gone)
    (hlast : (c.shared.refs t.pid).LastIn t.pid)
    (hdestroy : Step (program grow) c (.ask t (.destroy k)) c₁)
    (hrest : Run (Step (program grow)) c₁ tr c₂) : Sole c tr := by
  have hidle := idle_of_gone h hv hphase hgone
  refine ⟨hidle, ?_⟩
  have hdead : Dead c₁.shared := by
    obtain ⟨input, l', heq, hclient, -⟩ := hdestroy.of_ask (hidle t) rfl
    cases heq
    generalize c₁.shared = s₁ at hclient ⊢
    cases client_cases hclient with
    | destroy =>
      intro w hw
      obtain ⟨j, hj⟩ := List.mem_iff_getElem?.mp hw
      by_cases hjk : k = j
      · subst hjk
        rw [Shared.getElem?_modifyHandle_self _ hv] at hj
        cases hj
        rfl
      · rw [Shared.getElem?_modifyHandle_of_ne _ hjk] at hj
        exact Handle.not_live_of_gone (hgone j w (Ne.symm hjk) hj)
  have hall := hrest.everywhere' (I := fun c' => Destroying t c.shared c' ∧ Dead c'.shared)
    ⟨destroying_of_request h hidle hlast hdestroy, hdead⟩ fun hI hstep =>
      have hnext := hI.1.forksOnly hI.2 hstep
      ⟨hI.1.step hnext.1 hstep, hnext.2⟩
  -- every step was taken from a state in which only forks can be asked for
  clear hdestroy
  induction hrest with
  | start => exact throughout_nil _
  | next _ hstep ih =>
    obtain ⟨-, hbefore⟩ := everywhere_cons.mp hall
    exact throughout_cons.mpr ⟨(hbefore.1.1.forksOnly hbefore.1.2 hstep).1, ih hbefore⟩

/-! ## Runs -/

/-- **The destruction of the only remaining channel** gives back what `Channel::new` took, each
block once, and drops what is queued, if and only if the process that destroys it has created it,
and no earlier teardown has freed `Inner`. And it always comes to its end. -/
theorem destroy_releases_iff {k : ℕ} (hrun : Run (Step (program grow)) (initial capacity) tr c)
    (hlast : (c.shared.refs t.pid).LastIn t.pid)
    (hdestroy : Step (program grow) c (.ask t (.destroy k)) c₁)
    (hrest : Run (Step (program grow)) c₁ tr' c₂) (hsole : Sole c tr') :
    (c₂.threads t = .running .idle →
      (Released c₂.shared ↔ c.shared.inner.creatorPid = t.pid ∧ c.shared.innerFrees = 0)) ∧
    ∃ tr'' c₃, Run (Step (program grow)) c₁ tr'' c₃ ∧ tr' <:+ tr'' ∧ Sole c tr'' ∧
      c₃.threads t = .running .idle := by
  have howned : Owned c := (owned_of_run hrun).1
  have hlater : Destroying t c.shared c₂ :=
    hrest.invariant (destroying_of_request howned hsole.idle hlast hdestroy)
      (fun h hi hstep => h.step hi hstep) hsole.unused
  constructor
  · intro hend
    obtain ⟨l, hl, hdone⟩ := hlater.self
    cases hend.symm.trans hl
    exact released_iff hdone (queueFrees_of_idle hrun hsole.idle)
  · obtain ⟨tr'', c₃, hrun', hok, hsuffix, -, hend⟩ := hlater.finishes hrest hsole.unused
    exact ⟨tr'', c₃, hrun', hsuffix, ⟨hsole.idle, hok⟩, hend⟩

/-- A thread that is at rest, when no other thread has moved. -/
theorem idle_of_unmoved (hrun : Run (Step (program grow)) (initial capacity) tr c)
    (hmover : ∀ x ∈ tr, x.2.mover = t) (ht : c.threads t = .running .idle) (u : Tid) :
    c.threads u = .running .idle := by
  by_cases hu : u = t
  · rw [hu]
    exact ht
  · exact threads_of_run hrun fun x hx heq => hu (heq.symm.trans (hmover x hx))

/-- A client asks for the destruction of a channel. -/
theorem destroy_of_idle (grow : ℕ → Option ℕ) {k : ℕ} {v : Handle}
    (ht : c.threads t = .running .idle) (hv : c.shared.handles[k]? = some v)
    (hproc : v.proc = t.pid) (hphase : v.phase = .live []) (hkind : v.kind = .channel) :
    ∃ c₁, Step (program grow) c (.ask t (.destroy k)) c₁ := by
  have hclient : client t (.destroy k) c.shared = some
      (c.shared.modifyHandle k fun v => { v with originalPid := t.pid, phase := .closing },
        .drop ⟨k, t.pid⟩ .checkPid) := by
    simp [client, hv, hproc, hphase, hkind]
  exact ⟨_, .ask ht rfl hclient⟩

/-- The creator destroys a channel with a message in it. -/
theorem destroy_releases_creator : ∃ tr tr', ∃ c c₁ c₂ : State ℕ,
    Run (Step (program fun _ => none)) (initial 1) tr c ∧
      c.shared.inner.queue.items = [7] ∧
      Step (program fun _ => none) c (.ask ⟨0, 0⟩ (.destroy 0)) c₁ ∧
      Run (Step (program fun _ => none)) c₁ tr' c₂ ∧ Released c₂.shared := by
  obtain ⟨tr, c, hrun, hok, htest⟩ := exists_run_of_exec (program fun _ => none)
    (fun _ i => i.mover = ⟨0, 0⟩) (initial (α := ℕ) 1)
    (making ⟨0, 0⟩ 0 .sender ++ making ⟨0, 0⟩ 0 .receiver ++ calling ⟨0, 0⟩ 1 (.trySend 7) 9 ++
      dropping ⟨0, 0⟩ 1 4 ++ dropping ⟨0, 0⟩ 2 4)
    (fun c => c.threads ⟨0, 0⟩ = .running .idle ∧ c.shared.inner.queue.items = [7] ∧
      c.shared.handles[0]? = some ⟨.channel, 0, 0, 0, .live []⟩ ∧ (c.shared.refs 0).counter = 1 ∧
      c.shared.inner.creatorPid = 0 ∧ c.shared.innerFrees = 0) (by decide)
  obtain ⟨ht, hitems, hv, hcounter, hpid, hfrees⟩ := of_decide_eq_true htest
  have hidle := idle_of_unmoved hrun (fun x hx => of_decide_eq_true (hok x hx)) ht
  have hlast : (c.shared.refs 0).LastIn 0 := fun _ => hcounter
  obtain ⟨c₁, hdestroy⟩ := destroy_of_idle (fun _ => none) ht hv rfl rfl rfl
  obtain ⟨-, tr', c₂, hrest, -, hsole, hend⟩ :=
    destroy_releases_iff hrun hlast hdestroy .start ⟨hidle, throughout_nil _⟩
  have hiff := (destroy_releases_iff hrun hlast hdestroy hrest hsole).1 hend
  exact ⟨tr, tr', c, c₁, c₂, hrun, hitems, hdestroy, hrest, hiff.mpr ⟨hpid, hfrees⟩⟩

/-- A child destroys the channel that it inherited: the queue is not given back. -/
theorem destroy_leaks_in_child : ¬ ∀ (tr tr' : Trace ℕ) (c c₁ c₂ : State ℕ) (t : Tid) (k : ℕ),
    Run (Step (program fun _ => none)) (initial 1) tr c → (c.shared.refs t.pid).LastIn t.pid →
      Step (program fun _ => none) c (.ask t (.destroy k)) c₁ →
        Run (Step (program fun _ => none)) c₁ tr' c₂ → Sole c tr' →
          c₂.threads t = .running .idle → Released c₂.shared := by
  intro h
  obtain ⟨tr, c, hrun, hok, htest⟩ := exists_run_of_exec (program fun _ => none)
    (fun _ i => i.mover = ⟨0, 0⟩) (initial (α := ℕ) 1)
    (making ⟨0, 0⟩ 0 .sender ++ making ⟨0, 0⟩ 0 .receiver ++ calling ⟨0, 0⟩ 1 (.trySend 7) 9 ++
      dropping ⟨0, 0⟩ 1 4 ++ dropping ⟨0, 0⟩ 2 4 ++ [.ask ⟨0, 0⟩ .fork])
    (fun c => c.threads ⟨0, 0⟩ = .running .idle ∧ (c.shared.refs 1).pid = 0 ∧
      c.shared.handles[3]? = some ⟨.channel, 1, 0, 0, .live []⟩ ∧
      c.shared.inner.creatorPid = 0) (by decide)
  obtain ⟨ht, hrefs, hv, hpid⟩ := of_decide_eq_true htest
  have hidle := idle_of_unmoved hrun (fun x hx => of_decide_eq_true (hok x hx)) ht
  have hlast : (c.shared.refs 1).LastIn 1 := fun heq => by cases hrefs.symm.trans heq
  obtain ⟨c₁, hdestroy⟩ :=
    destroy_of_idle (t := ⟨1, 0⟩) (fun _ => none) (hidle _) hv rfl rfl rfl
  have hbegun := destroying_of_request (t := ⟨1, 0⟩) (owned_of_run hrun).1 hidle hlast hdestroy
  obtain ⟨tr', c₂, hrest, hunused, -, hlater, hend⟩ := hbegun.finishes .start (throughout_nil _)
  obtain ⟨l, hl, hdone⟩ := hlater.self
  cases hend.symm.trans hl
  have hreleased := h tr tr' c c₁ c₂ ⟨1, 0⟩ 3 hrun hlast hdestroy hrest ⟨hidle, hunused⟩ hend
  have hcreator := ((released_iff hdone (queueFrees_of_idle hrun hidle)).mp hreleased).1
  cases hpid.symm.trans hcreator

end ShmemUtils.Channel
