import ShmemUtils.Channel.ForkedCounter

/-!
# Destroying a channel in a forked process

`Channel::destroy` gives the inherited channel the pid of the child, so that its drop decreases the
counter of the child. The decrease returns `YouAreTheLastOne` when the counter is still the copy of
the parent's, or is 1; and the child never decreases it for the values that it has made.
-/

namespace ShmemUtils.Channel

open ShmemUtils.Library ShmemUtils.Library.Monitor

variable {α : Type} {grow : ℕ → Option ℕ} {t u : Tid} {l l' : Pc α} {s s' : Shared α}
  {p q k h : ℕ} {capacity : ℕ} {c c' c₁ : State α} {i : Event α} {tr : Trace α} {d : Dropping}
  {pc pc' : DropPc} {last : Prop}

/-- The statements of the teardown that do not depend on anything. -/
def teardown : List DropPc :=
  [.storeDropping, .swapReceivers, .lock, .checkCreator, .freeInner, .freeReferences]

/-- In the run the thread has taken the step of the drop at `pc`. -/
def Executes (t : Tid) (d : Dropping) (tr : Trace α) (pc : DropPc) : Prop :=
  ∃ x ∈ tr, x.2.mover = t ∧ x.1.threads t = .running (.drop d pc)

/-- The decrease in the drop of the channel `h` has returned `YouAreTheLastOne`, since otherwise the
drop ends there, and the teardown has run. -/
def Recognised (t : Tid) (h : ℕ) (tr : Trace α) : Prop :=
  ∀ pc ∈ teardown, Executes t ⟨h, t.pid⟩ tr pc

/-- The process of `t` does nothing but the call that `t` is in, while others may do anything:
`destroy` is for the only copy that a process has. -/
def InsideCall (t : Tid) (_ : State α) (i : Event α) : Prop :=
  i.mover.pid = t.pid → i.mover = t ∧ ∀ input, i ≠ .ask t input

/-- Everything that the process has made is dropped, and none of its threads is inside a call. -/
structure AllDropped (p : ℕ) (c : State α) : Prop where
  idle : ∀ u : Tid, u.pid = p → c.threads u = .running .idle
  gone : ∀ v ∈ c.shared.handles, v.madeBy p = true → v.phase = .gone

theorem nextPid_le_of_step (hstep : Step (program grow) c i c') :
    c.shared.nextPid ≤ c'.shared.nextPid := by
  rcases hstep.moves with ⟨l, l', -, -, hgoes⟩ | ⟨hs, -⟩
  · exact (moves_of_goes hgoes).nextPid_le
  · rw [hs]

/-- No step of process `p` changes the counter of process `q`. -/
def KeepsRefs (grow : ℕ → Option ℕ) (p q : ℕ) (tr : Trace α) : Prop :=
  Throughout (fun c i => i.mover.pid = p → ∀ c', Step (program grow) c i c' →
    c'.shared.refs q = c.shared.refs q) tr

/-- A process that has been forked does not touch the counter of another one. -/
theorem keepsRefs_of_run (hrun : Run (Step (program grow)) c₁ tr c) (hpq : q ≠ p)
    (hq : q < c₁.shared.nextPid) : KeepsRefs grow p q tr := by
  have hborn : Everywhere (fun c : State α => q < c.shared.nextPid) tr c :=
    hrun.everywhere' hq fun hlt hstep => Nat.lt_of_lt_of_le hlt (nextPid_le_of_step hstep)
  rintro ⟨c, i⟩ hx hpid c' hstep
  rcases hstep.moves with ⟨l, l', -, -, hgoes⟩ | ⟨hs, -⟩
  · exact (moves_of_goes hgoes).refs_of_ne (fun heq => hpq (heq.trans hpid)) (hborn.2 _ hx)
  · rw [hs]

/-! ## What the decrease decides -/

namespace DropPc

/-- What the drop goes by: the decrease will say whether it was the last one, or has said so. -/
def Decides (t : Tid) (last : Prop) (s : Shared α) : DropPc → Prop
  | .checkPid => (s.refs t.pid).LastIn t.pid ↔ last
  | .swapPid => (s.refs t.pid).LastIn t.pid ↔ last
  | .subCounter => (s.refs t.pid).counter = 1 ↔ last
  | pc => last ∧ pc.rank < 14

theorem Decides.rank_lt (h : pc.Decides t last s) : pc.rank < 17 := by
  cases pc <;> first
    | exact Nat.lt_trans h.2 (by decide)
    | simp [DropPc.rank]

theorem Decides.of_rank (hlast : last) (hrank : pc.rank < 14) : pc.Decides t last s := by
  cases pc <;> first
    | exact ⟨hlast, hrank⟩
    | exact absurd hrank (by decide)

/-- The decision is about the counter of one process. -/
theorem Decides.of_refs (h : pc.Decides t last s) (hrefs : s'.refs t.pid = s.refs t.pid) :
    pc.Decides t last s' := by
  cases pc <;> simp only [Decides, hrefs] at h ⊢ <;> exact h

theorem Decides.last_of_mem (h : pc.Decides t last s) (hpc : pc ∈ teardown) : last := by
  cases pc <;> first
    | exact h.1
    | simp [teardown] at hpc

end DropPc

/-- A move of the drop: on to the next point, or to the end of the call. -/
theorem DropMoves.decides (hm : DropMoves t d pc s l' s') (hd : d.originalPid = t.pid)
    (h : pc.Decides t last s) :
    (∃ pc', l' = .drop d pc' ∧ pc'.Decides t last s') ∨
      l' = .idle ∧ (last → pc = .freeReferences) := by
  -- once it has been the last one, the drop goes through the teardown
  have hgoesOn : ∀ {pc₀ pc₁ : DropPc} {s' : Shared α}, DropMoves t d pc₀ s (.drop d pc₁) s' →
      last ∧ pc₀.rank < 14 →
      ∃ pc', Pc.drop d pc₁ = (.drop d pc' : Pc α) ∧ pc'.Decides t last s' := by
    rintro pc₀ pc₁ s' hm ⟨hlast, hrank⟩
    have hlt := hm.rank_lt (Nat.lt_trans hrank (by decide))
    exact ⟨pc₁, rfl, .of_rank hlast (Nat.lt_trans hlt hrank)⟩
  have hmove := hm
  cases hm with
  | foreign hne => exact absurd hd hne
  | owner => exact Or.inl ⟨_, rfl, h⟩
  | samePid hpid =>
    refine Or.inl ⟨_, rfl, ?_⟩
    show ((s.setRefs t.pid { s.refs t.pid with pid := t.pid }).refs t.pid).counter = 1 ↔ last
    rw [setRefs_self]
    exact ⟨fun hone => h.mp fun _ => hone, fun hlast => h.mpr hlast hpid⟩
  | otherPid hpid =>
    exact Or.inl ⟨_, rfl, .of_rank (h.mp fun heq => absurd heq hpid) (by decide)⟩
  | last hone => exact Or.inl ⟨_, rfl, .of_rank (h.mp hone) (by decide)⟩
  | moveAlong hmore => exact Or.inr ⟨rfl, fun hlast => absurd (h.mpr hlast) hmore⟩
  | freeReferences => exact Or.inr ⟨rfl, fun _ => rfl⟩
  | _ => exact Or.inl (hgoesOn hmove h)

/-- No statement of the teardown is skipped. -/
theorem DropMoves.passes (hm : DropMoves t d pc s (.drop d pc') s') (hpc : pc.rank < 17) :
    ∀ q ∈ teardown, pc'.rank < q.rank → q = pc ∨ pc.rank < q.rank := by
  cases hm with
  | swapSenders hnext => rcases hnext with rfl | rfl | rfl <;> simp [teardown, DropPc.rank]
  | broadcastItem hnext => rcases hnext with rfl | rfl <;> simp [teardown, DropPc.rank]
  | lock hnext => rcases hnext with rfl | rfl <;> simp [teardown, DropPc.rank]
  | destroyMutex hnext => rcases hnext with rfl | rfl <;> simp [teardown, DropPc.rank]
  | @destroyCondvar side _ _ hnext =>
    subst hnext
    cases side <;> simp [teardown, DropPc.rank, Side.afterDestroy]
  | loadZero => exact absurd hpc (Nat.lt_irrefl 17)
  | load => exact absurd hpc (Nat.lt_irrefl 17)
  | reachZero => exact absurd hpc (Nat.lt_irrefl 17)
  | subtract => exact absurd hpc (Nat.lt_irrefl 17)
  | exchangeZero => exact absurd hpc (Nat.lt_irrefl 17)
  | retry => exact absurd hpc (Nat.lt_irrefl 17)
  | broadcast => exact absurd hpc (Nat.lt_irrefl 17)
  | _ => simp [teardown, DropPc.rank]

/-! ## The call of `destroy` -/

/-- Thread `t` of a forked process is inside the drop of a channel that its process destroys, or at
its end. -/
structure Deciding (t : Tid) (d : Dropping) (last : Prop) (c : State α) : Prop where
  owned : Owned c
  born : t.pid < c.shared.nextPid
  forked : t.pid ≠ 0
  self : (∃ pc, c.threads t = .running (.drop d pc) ∧ pc.Decides t last c.shared) ∨
    c.threads t = .running .idle

/-- The request begins the drop, and leaves the counter as it is. -/
theorem deciding_of_request (howned : Owned c) (hborn : t.pid < c.shared.nextPid)
    (hforked : t.pid ≠ 0) (hidle : c.threads t = .running .idle)
    (hstep : Step (program grow) c (.ask t (.destroy h)) c') :
    Deciding t ⟨h, t.pid⟩ ((c.shared.refs t.pid).LastIn t.pid) c' ∧
      c'.threads t = .running (.drop ⟨h, t.pid⟩ .checkPid) := by
  have hborn' : t.pid < c'.shared.nextPid :=
    Nat.lt_of_lt_of_le hborn (nextPid_le_of_step hstep)
  have howned' := howned.step hstep
  obtain ⟨input, l', heq, hclient, ht'⟩ := hstep.of_ask hidle rfl
  cases heq
  generalize hs : c'.shared = s' at hclient
  cases client_cases hclient with
  | destroy =>
    refine ⟨⟨howned', hborn', hforked, Or.inl ⟨_, ht', ?_⟩⟩, ht'⟩
    show (c'.shared.refs t.pid).LastIn t.pid ↔ (c.shared.refs t.pid).LastIn t.pid
    rw [hs]
    rfl

/-- Steps of other processes do not touch the counter, and `t` goes on. -/
theorem Deciding.step (h : Deciding t d last c) (hd : d.originalPid = t.pid)
    (hin : InsideCall t c i) (hstep : Step (program grow) c i c') : Deciding t d last c' := by
  refine ⟨h.owned.step hstep, Nat.lt_of_lt_of_le h.born (nextPid_le_of_step hstep), h.forked, ?_⟩
  by_cases hmover : i.mover = t
  · subst hmover
    rcases h.self with ⟨pc, ht, hpc⟩ | ht
    · rcases hstep.goes ht with ⟨l', ht', hgoes⟩ | ⟨cv, next, late, hwait, -⟩
      · rcases (dropMoves_of_goes hgoes).decides hd hpc with ⟨pc', rfl, hpc'⟩ | ⟨rfl, -⟩
        · exact Or.inl ⟨pc', ht', hpc'⟩
        · exact Or.inr ht'
      · exact absurd hwait drop_ne_wait
    · -- nothing new is begun
      obtain ⟨input, l', heq, -⟩ := hstep.of_ask ht rfl
      exact absurd heq ((hin rfl).2 input)
  · have hne : i.mover.pid ≠ t.pid := fun heq => hmover (hin heq).1
    have hrefs : c'.shared.refs t.pid = c.shared.refs t.pid := by
      rcases hstep.moves with ⟨l, l', -, -, hgoes⟩ | ⟨hs, -⟩
      · exact (moves_of_goes hgoes).refs_of_ne (Ne.symm hne) h.born
      · rw [hs]
    rw [hstep.others (Ne.symm hmover)]
    exact h.self.imp_left fun ⟨pc, ht, hpc⟩ => ⟨pc, ht, hpc.of_refs hrefs⟩

/-- The call comes to its end, whatever other processes do. -/
theorem Deciding.finishes (hrun : Run (Step (program grow)) c₁ tr c) (h : Deciding t d last c)
    (hd : d.originalPid = t.pid) (hinside : Throughout (InsideCall t) tr) :
    ∃ tr' c', Run (Step (program grow)) c₁ tr' c' ∧ Throughout (InsideCall t) tr' ∧ tr <:+ tr' ∧
      c'.threads t = .running .idle := by
  have hcontinue : ∀ {c : State α}, Deciding t d last c → ¬ c.threads t = .running .idle →
      ∃ i c', InsideCall t c i ∧ Step (program grow) c i c' ∧ Deciding t d last c' ∧
        dropRank t c' < dropRank t c := by
    intro c h hidle
    obtain ⟨pc, ht, hpc⟩ := h.self.resolve_right hidle
    by_cases hheld : pc = .lock ∧ c.owner ≠ none
    · -- the lock attempt runs out of time
      obtain ⟨rfl, howner⟩ := hheld
      have hstep : Step (program grow) c (.expire t)
          (c.goto t (.running (.drop d .checkCreator))) := .timedLockExpired ht rfl howner
      have hin : InsideCall t c (.expire t) := fun _ => ⟨rfl, fun _ heq => by cases heq⟩
      exact ⟨_, _, hin, hstep, h.step hd hin hstep, dropRank_lt hstep rfl ht hpc.rank_lt⟩
    · have hfree : pc = .lock → c.owner = none := fun heq => by
        by_contra howner
        exact hheld ⟨heq, howner⟩
      -- the condition variables are destroyed by the process that made the channel
      have hnobody : ∀ side, pc = .destroyCondvar side → c.waiters side = [] := fun side heq =>
        absurd (h.owned.sound.creator.running ht d pc rfl (by rw [heq]; rfl)) h.forked
      obtain ⟨c', hstep⟩ :=
        exists_step_of_drop grow h.owned.sound.exclusive hfree hnobody ht hpc.rank_lt
      have hin : InsideCall t c (.run t) := fun _ => ⟨rfl, fun _ heq => by cases heq⟩
      exact ⟨_, c', hin, hstep, h.step hd hin hstep, dropRank_lt hstep rfl ht hpc.rank_lt⟩
  obtain ⟨tr', c', hrun', hin, hsuffix, -, hidle⟩ := hrun.reaches (dropRank t) hcontinue hinside h
  exact ⟨tr', c', hrun', hin, hsuffix, hidle⟩

/-! ## What the call has executed -/

theorem executes_cons {x : State α × Event α} :
    Executes t d (x :: tr) pc ↔
      (x.2.mover = t ∧ x.1.threads t = .running (.drop d pc)) ∨ Executes t d tr pc := by
  unfold Executes
  constructor
  · rintro ⟨y, hy, hrest⟩
    rcases List.mem_cons.mp hy with rfl | hmem
    · exact Or.inl hrest
    · exact Or.inr ⟨y, hmem, hrest⟩
  · rintro (hhead | ⟨y, hmem, hrest⟩)
    · exact ⟨x, List.mem_cons_self, hhead⟩
    · exact ⟨y, List.mem_cons_of_mem _ hmem, hrest⟩

/-- How far the call has come: a last decrease is followed by the whole teardown, any other by none
of it. -/
structure Passed (t : Tid) (d : Dropping) (last : Prop) (tr : Trace α) (c : State α) : Prop where
  passed : ∀ {pc}, c.threads t = .running (.drop d pc) →
    ∀ q ∈ teardown, pc.rank < q.rank → Executes t d tr q
  ended : c.threads t = .running .idle → last → ∀ q ∈ teardown, Executes t d tr q
  never : ¬ last → ∀ q ∈ teardown, ¬ Executes t d tr q

theorem Passed.step (h : Passed t d last tr c) (hdeciding : Deciding t d last c)
    (hd : d.originalPid = t.pid) (hin : InsideCall t c i) (hstep : Step (program grow) c i c') :
    Passed t d last ((c, i) :: tr) c' := by
  by_cases hmover : i.mover = t
  swap
  · have hsame : c'.threads t = c.threads t := hstep.others (Ne.symm hmover)
    constructor
    · intro pc ht q hq hrank
      exact executes_cons.mpr (Or.inr (h.passed (hsame.symm.trans ht) q hq hrank))
    · intro ht hlast q hq
      exact executes_cons.mpr (Or.inr (h.ended (hsame.symm.trans ht) hlast q hq))
    · intro hnot q hq hexecutes
      rcases executes_cons.mp hexecutes with ⟨heq, -⟩ | hbefore
      · exact hmover heq
      · exact h.never hnot q hq hbefore
  subst hmover
  rcases hdeciding.self with ⟨pc, ht, hpc⟩ | ht
  swap
  · obtain ⟨input, l', heq, -⟩ := hstep.of_ask ht rfl
    exact absurd heq ((hin rfl).2 input)
  rcases hstep.goes ht with ⟨l', ht', hgoes⟩ | ⟨cv, next, late, hwait, -⟩
  swap
  · exact absurd hwait drop_ne_wait
  have hm := dropMoves_of_goes hgoes
  constructor
  · intro pc' hl' q hq hrank
    cases ht'.symm.trans hl'
    rcases hm.passes hpc.rank_lt q hq hrank with rfl | hbefore
    · exact executes_cons.mpr (Or.inl ⟨rfl, ht⟩)
    · exact executes_cons.mpr (Or.inr (h.passed ht q hq hbefore))
  · intro hl' hlast q hq
    cases ht'.symm.trans hl'
    rcases hm.decides hd hpc with ⟨pc', heq, -⟩ | ⟨-, hend⟩
    · cases heq
    · obtain rfl := hend hlast
      have hlow : ∀ q ∈ teardown, q = .freeReferences ∨ DropPc.freeReferences.rank < q.rank := by
        decide
      rcases hlow q hq with rfl | hrank
      · exact executes_cons.mpr (Or.inl ⟨rfl, ht⟩)
      · exact executes_cons.mpr (Or.inr (h.passed ht q hq hrank))
  · intro hnot q hq hexecutes
    rcases executes_cons.mp hexecutes with ⟨-, hq'⟩ | hbefore
    · cases ht.symm.trans hq'
      exact hnot (hpc.last_of_mem hq)
    · exact h.never hnot q hq hbefore

theorem passed_of_run (hrun : Run (Step (program grow)) c₁ tr c) (h : Deciding t d last c₁)
    (ht : c₁.threads t = .running (.drop d .checkPid)) (hd : d.originalPid = t.pid)
    (hinside : Throughout (InsideCall t) tr) : Deciding t d last c ∧ Passed t d last tr c := by
  induction hrun with
  | start =>
    refine ⟨h, fun {pc} hpc q hq hrank => ?_, fun hidle => ?_, fun _ q _ hexecutes => ?_⟩
    · cases ht.symm.trans hpc
      have hhigh : ∀ q ∈ teardown, ¬ DropPc.checkPid.rank < q.rank := by decide
      exact absurd hrank (hhigh q hq)
    · cases ht.symm.trans hidle
    · obtain ⟨x, hx, -⟩ := hexecutes
      cases hx
  | next _ hstep ih =>
    obtain ⟨hin, htail⟩ := throughout_cons.mp hinside
    obtain ⟨hdeciding, hpassed⟩ := ih htail
    exact ⟨hdeciding.step hd hin hstep, hpassed.step hdeciding hd hin hstep⟩

/-- At the end of the call its teardown has run, or nothing of it. -/
theorem recognised_iff (hrun : Run (Step (program grow)) c₁ tr c)
    (hstart : Deciding t ⟨h, t.pid⟩ last c₁)
    (ht : c₁.threads t = .running (.drop ⟨h, t.pid⟩ .checkPid))
    (hinside : Throughout (InsideCall t) tr) (hidle : c.threads t = .running .idle) :
    Recognised t h tr ↔ last := by
  have hpassed := (passed_of_run hrun hstart ht rfl hinside).2
  constructor
  · intro hrecognised
    by_contra hnot
    exact hpassed.never hnot .storeDropping List.mem_cons_self
      (hrecognised .storeDropping List.mem_cons_self)
  · exact hpassed.ended hidle

/-- **When `destroy` recognises the last handle after a fork**: the parent has handles, and the
child has dropped all that it made of its own, in any number and any order. If it has made none,
the comparison of the pids decides; otherwise the counter is their number, and has to be 1. The
call always ends, and the child never touches the counter of its parent. -/
theorem destroy_recognises_iff {c₀ c₂ : State α} {tr₀ tr' : Trace α}
    (hparent : Run (Step (program grow)) (initial capacity) tr₀ c₀)
    (hfork : Step (program grow) c₀ (.ask u .fork) c₁)
    (hhandles : 0 < (c₀.shared.refs u.pid).counter) (hpid : t.pid = c₀.shared.nextPid)
    (hchild : Run (Step (program grow)) c₁ tr c)
    (huses : Throughout (fun _ i => Label.destroysIn t.pid i = false) tr)
    (hdropped : AllDropped t.pid c) (hdestroy : Step (program grow) c (.ask t (.destroy h)) c')
    (hrest : Run (Step (program grow)) c' tr' c₂) (hinside : Throughout (InsideCall t) tr') :
    (c₂.threads t = .running .idle → (Recognised t h tr' ↔
      c.shared.made t.pid = 0 ∨ c.shared.made t.pid % usizeLimit = 1)) ∧
    (∃ tr'' c₃, Run (Step (program grow)) c' tr'' c₃ ∧ Throughout (InsideCall t) tr'' ∧
      tr' <:+ tr'' ∧ c₃.threads t = .running .idle) ∧
    KeepsRefs grow t.pid u.pid (tr' ++ (c, .ask t (.destroy h)) :: tr) := by
  obtain ⟨hforked, hword⟩ := child_of_fork hparent hfork
  obtain ⟨-, -, hborn, hs⟩ := fork_of_ask hfork
  rw [← hpid] at hforked
  have hc : Child t.pid (c₀.shared.refs u.pid).counter c :=
    hchild.invariant hforked (fun hI hi hstep => hI.step hhandles hword hi hstep) huses
  have hne : t.pid ≠ 0 := by
    rw [hpid]
    exact Nat.ne_of_gt (Nat.zero_lt_of_lt hborn)
  obtain ⟨hstart, ht⟩ := deciding_of_request hc.owned hc.born hne (hdropped.idle t rfl) hdestroy
  refine ⟨fun hidle => ?_, ?_, ?_⟩
  · rw [recognised_iff hrest hstart ht hinside hidle]
    exact hc.last_iff hdropped.idle
  · exact (passed_of_run hrest hstart ht rfl hinside).1.finishes hrest rfl hinside
  · refine keepsRefs_of_run ((hchild.next hdestroy).append hrest) ?_ ?_
    · exact fun heq => Nat.ne_of_lt hborn (heq.trans hpid)
    · rw [hs]
      exact Nat.lt_succ_of_lt hborn

/-- Process 0 has made a channel and forked process 1. -/
def forked : State ℕ :=
  { initial 1 with shared := (Shared.new 1).fork 0 }.goto ⟨0, 0⟩ (.running .idle)

theorem forked_step :
    Step (program fun _ => none) (initial (α := ℕ) 1) (.ask ⟨0, 0⟩ .fork) forked :=
  .ask rfl rfl rfl

/-- Process 1 carries out a script in which it drops what it makes, and destroys its channel. -/
theorem exists_destroy (script : List (Event ℕ)) (n : ℕ)
    (hscript : (exec (program fun _ => none)
      (fun _ i => i.mover = ⟨1, 0⟩ ∧ Label.destroysIn 1 i = false) script forked).any
      (fun c => c.threads ⟨1, 0⟩ = .running .idle ∧
        (∀ v ∈ c.shared.handles, v.madeBy 1 = true → v.phase = .gone) ∧ c.shared.made 1 = n ∧
        c.shared.handles[1]? = some ⟨.channel, 1, 0, 0, .live []⟩) = true) :
    ∃ tr c c', Run (Step (program fun _ => none)) forked tr c ∧
      Throughout (fun _ i => Label.destroysIn 1 i = false) tr ∧ AllDropped 1 c ∧
      c.shared.made 1 = n ∧ Step (program fun _ => none) c (.ask ⟨1, 0⟩ (.destroy 1)) c' := by
  obtain ⟨tr, c, hrun, hok, htest⟩ := exists_run_of_exec _ _ _ script _ hscript
  obtain ⟨ht, hgone, hmade, hv⟩ := of_decide_eq_true htest
  have hidle : ∀ u : Tid, c.threads u = .running .idle := by
    intro u
    have hmovers : Throughout (fun _ i => i.mover ∈ [(⟨1, 0⟩ : Tid)]) tr :=
      fun x hx => List.mem_singleton.mpr (of_decide_eq_true (hok x hx)).1
    rcases threads_of_movers hrun hmovers u with hmem | hsame
    · rw [List.mem_singleton.mp hmem]
      exact ht
    · exact hsame.trans (ite_self _)
  obtain ⟨c', hdestroy⟩ :=
    destroy_of_idle (t := ⟨1, 0⟩) (fun _ => none) (hidle _) hv rfl rfl rfl
  exact ⟨tr, c, c', hrun, fun x hx => (of_decide_eq_true (hok x hx)).2,
    ⟨fun u _ => hidle u, hgone⟩, hmade, hdestroy⟩

/-- A child that has made and dropped one sender. -/
theorem destroy_recognises_one : ∃ tr tr', ∃ c c' c₂ : State ℕ,
    Run (Step (program fun _ => none)) forked tr c ∧ c.shared.made 1 = 1 ∧
      Step (program fun _ => none) c (.ask ⟨1, 0⟩ (.destroy 1)) c' ∧
      Run (Step (program fun _ => none)) c' tr' c₂ ∧ Recognised ⟨1, 0⟩ 1 tr' := by
  obtain ⟨tr, c, c', hchild, huses, hdropped, hmade, hdestroy⟩ :=
    exists_destroy (making ⟨1, 0⟩ 1 .sender ++ dropping ⟨1, 0⟩ 2 2) 1 (by decide)
  obtain ⟨-, ⟨tr', c₂, hrest, hinside, -, hend⟩, -⟩ := destroy_recognises_iff
    (t := ⟨1, 0⟩) .start forked_step Nat.one_pos rfl hchild huses hdropped hdestroy .start
    (throughout_nil _)
  have hiff := (destroy_recognises_iff (t := ⟨1, 0⟩) .start forked_step Nat.one_pos rfl hchild
    huses hdropped hdestroy hrest hinside).1 hend
  refine ⟨tr, tr', c, c', c₂, hchild, hmade, hdestroy, hrest, hiff.mpr (Or.inr ?_)⟩
  show c.shared.made 1 % usizeLimit = 1
  rw [hmade]
  exact Nat.mod_eq_of_lt (Nat.one_lt_two_pow (by decide))

/-- A child that has made a sender and a receiver and dropped both: its counter is 2, and the
decrease in the drop of the channel returns `MoveAlong`. -/
theorem destroy_moves_along : ¬ ∀ (tr₀ tr tr' : Trace ℕ) (c₀ c₁ c c' c₂ : State ℕ) (t u : Tid)
    (h : ℕ), Run (Step (program fun _ => none)) (initial 1) tr₀ c₀ →
      Step (program fun _ => none) c₀ (.ask u .fork) c₁ →
        0 < (c₀.shared.refs u.pid).counter → t.pid = c₀.shared.nextPid →
          Run (Step (program fun _ => none)) c₁ tr c →
            Throughout (fun _ i => Label.destroysIn t.pid i = false) tr → AllDropped t.pid c →
              Step (program fun _ => none) c (.ask t (.destroy h)) c' →
                Run (Step (program fun _ => none)) c' tr' c₂ → Throughout (InsideCall t) tr' →
                  c₂.threads t = .running .idle → Recognised t h tr' := by
  intro h
  obtain ⟨tr, c, c', hchild, huses, hdropped, hmade, hdestroy⟩ :=
    exists_destroy (making ⟨1, 0⟩ 1 .sender ++ making ⟨1, 0⟩ 1 .receiver ++
      dropping ⟨1, 0⟩ 2 2 ++ dropping ⟨1, 0⟩ 3 2) 2 (by decide)
  have hc : Child 1 1 c := hchild.invariant (child_of_fork .start forked_step).1
    (fun hI hi hstep => hI.step Nat.one_pos (Nat.one_lt_two_pow (by decide)) hi hstep) huses
  obtain ⟨hstart, ht⟩ := deciding_of_request (t := ⟨1, 0⟩) hc.owned hc.born Nat.one_ne_zero
    (hdropped.idle _ rfl) hdestroy
  obtain ⟨tr', c₂, hrest, hinside, -, hend⟩ := hstart.finishes .start rfl (throughout_nil _)
  have hrecognised := h [] tr tr' _ _ c c' c₂ ⟨1, 0⟩ _ 1 .start forked_step Nat.one_pos rfl hchild
    huses hdropped hdestroy hrest hinside hend
  have hlast := (hc.last_iff hdropped.idle).mp
    ((recognised_iff hrest hstart ht hinside hend).mp hrecognised)
  rw [hmade] at hlast
  rcases hlast with hzero | hone
  · cases hzero
  · have htwo : 2 % usizeLimit = 2 := Nat.mod_eq_of_lt (by decide)
    cases htwo.symm.trans hone

end ShmemUtils.Channel
