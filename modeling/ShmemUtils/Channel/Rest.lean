import ShmemUtils.Library.Rest
import ShmemUtils.Channel.Capacity
import ShmemUtils.Channel.Release
import ShmemUtils.Channel.SingleWakeUps

/-!
# The channel comes to rest

Without new calls, and without time running out, the threads of a channel can take a bounded number
of steps only. The potential counts what is left of each call: an operation comes nearer to its
return or to its sleep with every step, and a sleeper that is woken may evaluate its predicate once
more; making a handle and dropping one take a few steps each, and a failed exchange is repeated at
most once for each time that another thread changes the counter.
-/

namespace ShmemUtils.Channel

open ShmemUtils.Library ShmemUtils.Library.Monitor

variable {α : Type} {grow : ℕ → Option ℕ} {t u : Tid} {l l' : Pc α} {s s' : Shared α}
  {side : Side} {capacity n : ℕ} {c c' : State α} {i : Event α} {tr : Trace α}

/-- What is left to the program itself: an exchange that fails only when the counter differs. -/
def Input.inner : Input α → Bool
  | .exchange false => true
  | _ => false

/-! ## The points of an operation -/

namespace Op

/-- The points that the function of the operation has. -/
def has (op : Op α) : OpPc α → Bool
  | .testQueue _ =>
    match op with
    | .tryReceiveOnce => false
    | _ => true
  | .testPeers _ => op.blocks
  | .testDropping _ => op.waits
  | .sleep => op.waits
  | .readPeers =>
    match op with
    | .receive => false
    | .waitForMessageUntil => false
    | _ => true
  | .readDropping =>
    match op with
    | .receive => false
    | .waitForMessageUntil => false
    | _ => true
  | .transfer =>
    match op with
    | .waitForMessageUntil => false
    | _ => true
  | .notify _ =>
    match op with
    | .waitForMessageUntil => false
    | _ => true
  | _ => true

end Op

theorem OpMoves.has {op : Op α} {pc pc' : OpPc α} (hm : OpMoves grow t op pc s pc' s')
    (hpc : op.has pc = true) : op.has pc' = true := by
  cases hm with
  | locked hop => cases op <;> first | rfl | exact absurd rfl hop
  | lockedOnce hop =>
    subst hop
    rfl
  | ready => cases op <;> rfl
  | unready hblocks => exact hblocks
  | lonely hop =>
    subst hop
    rfl
  | disconnected => cases op <;> rfl
  | connected hop => exact hop
  | released => cases op <;> rfl
  | sleeps hop => exact hop
  | accompanied => exact hpc
  | goesOn hop => cases op <;> first | rfl | cases hpc
  | push hitem => cases op <;> first | rfl | cases hitem
  | pop hr => cases op <;> first | rfl | cases hr
  | popNone hop =>
    subst hop
    rfl
  | _ => rfl

/-- Before it returns, an operation has something to do at each of its points. -/
theorem op_offers {op : Op α} {pc : OpPc α} (hpc : op.has pc = true) (hret : ∀ r, pc ≠ .ret r) :
    (op.action grow t pc).Offers Input.inner s := by
  cases pc with
  | ret r => exact absurd rfl (hret r)
  | start => rw [action_start]; trivial
  | lock => cases op <;> trivial
  | testQueue late => cases op <;> trivial
  | testPeers late => cases op <;> trivial
  | testDropping late => cases op <;> trivial
  | sleep => cases op <;> trivial
  | readPeers => cases op <;> trivial
  | readDropping => cases op <;> trivial
  | transfer => cases op <;> trivial
  | notify r => cases op <;> trivial
  | unlock r => cases op <;> trivial

/-- The thread is at a point that its operation has. -/
def Proper : Pc α → Prop
  | .op _ op pc => op.has pc = true
  | _ => True

def pointsOutline : Outline (Shared α) Tid (Pc α) where
  global _ := True
  running _ l _ := Proper l
  asleep _ l _ := Proper l

theorem Moves.proper (hm : Moves grow t l s l' s') (hl : Proper l) : Proper l' := by
  cases hm with
  | asked ha => cases ha <;> trivial
  | op hgoes => exact (opMoves_of_goes hgoes).has hl
  | ret => trivial
  | make hm => cases hm <;> trivial
  | drop hm => cases hm <;> trivial

theorem pointsOutline_valid (apart : Pc α → Pc α → Prop) :
    (pointsOutline (α := α)).Valid (program grow) apart fun _ _ _ => True where
  own _ hl _ := by
    refine program_establishes (fun l' s' hm => ⟨trivial, hm.proper hl⟩) ?_
    rintro h op late rfl
    have hsleep : op.waits = true := hl
    show op.has (.testQueue late) = true
    cases op <;> first | rfl | cases hsleep
  wake _ hl := hl
  frame _ _ _ _ _ _ hl := hl
  frameAsleep _ _ _ _ _ hl := hl

/-! ## The potential -/

namespace Op

def takesOnce : Op α → Bool
  | .tryReceiveOnce => true
  | _ => false

/-- A bound on the steps that are left of an operation. A sleeper that is woken is five steps
further from its end, and so a signal costs that much. -/
def weight (op : Op α) : OpPc α → ℕ
  | .ret _ => 1
  | .unlock _ => 2
  | .notify _ => 8
  -- `try_receive_once` looks for an item before it reads the counter
  | .transfer => if op.takesOnce then 11 else 9
  | .readDropping => if op.takesOnce then 9 else 10
  | .readPeers => if op.takesOnce then 10 else 11
  | .sleep => 21
  | .testDropping _ => 22
  | .testPeers _ => 23
  | .testQueue _ => 24
  | .lock => 25
  | .start => 26

theorem weight_resume (op : Op α) : op.weight op.resume < 21 := by
  cases op <;> simp [weight, resume, takesOnce]

end Op

/-- Every move of an operation but the repetition of a lock attempt lowers its weight. -/
theorem OpMoves.weight_lt {op : Op α} {pc pc' : OpPc α} (hm : OpMoves grow t op pc s pc' s')
    (hpc' : pc' ≠ .start) : op.weight pc' < op.weight pc := by
  have hresume := op.weight_resume
  cases hm with
  | retries => exact absurd rfl hpc'
  | lockedOnce hop =>
    subst hop
    simp [Op.weight, Op.takesOnce]
  | ready => exact hresume.trans (by simp [Op.weight])
  | disconnected => exact hresume.trans (by simp [Op.weight])
  | released => exact hresume.trans (by simp [Op.weight])
  | goesOn hop => cases op <;> first | exact absurd rfl hop | simp [Op.weight, Op.takesOnce]
  | nothing hop =>
    subst hop
    simp [Op.weight, Op.takesOnce]
  | popNone hop =>
    subst hop
    simp [Op.weight, Op.takesOnce]
  | _ =>
    simp only [Op.weight]
    first | omega | (split <;> omega)

/-- A lock attempt that does not run out of time does not start again. -/
theorem start_not_next {op : Op α} {pc pc' : OpPc α}
    (h : ((op.action grow t pc).unprompted Input.inner).Goes s pc' s') : pc' ≠ .start := by
  have hm := opMoves_of_goes (Action.goes_of_unprompted h)
  intro heq
  cases hm with
  | retries => cases op <;> · obtain ⟨-, hl | hl⟩ := h <;> cases hl
  | ready => cases op <;> cases heq
  | disconnected => cases op <;> cases heq
  | released => cases op <;> cases heq
  | _ => cases heq

namespace DropPc

/-- A bound on the steps that are left of a drop whose exchanges do not fail. -/
def bound : DropPc → ℕ
  | .load _ => 19
  | .exchange _ _ => 18
  | pc => pc.rank

/-- The counter has changed since the drop has read it. -/
def stale (inner : Inner α) : DropPc → ℕ
  | .exchange side counter => if side.peers inner = counter then 0 else 1
  | _ => 0

theorem stale_le_one (inner : Inner α) (pc : DropPc) : pc.stale inner ≤ 1 := by
  unfold stale
  split
  · split <;> omega
  · omega

end DropPc

namespace MakePc

def weight : MakePc → ℕ
  | .loadCounter => 4
  | .swapPid _ => 3
  | .addCounter => 2
  | .resetCounter _ => 2
  | .create => 1

end MakePc

/-- What is left of what a thread is doing, when there are `n` threads. A step that changes a
counter makes the exchanges of the others fail, and a broadcast wakes them all. -/
def weight (n : ℕ) : Pc α → Shared α → ℕ
  | .idle, _ => 0
  | .op _ op pc, _ => op.weight pc
  | .make _ pc, _ => n + pc.weight
  | .drop _ pc, s => (pc.bound + 1) * (6 * n + 2) + pc.stale s.inner

/-- What is left of a sleeper, until it is woken. -/
def sleepWeight (n : ℕ) : Pc α → ℕ
  | .idle => 0
  | .op _ op pc => op.weight pc - 4
  | .make _ pc => n + pc.weight
  | .drop _ pc => (pc.bound + 1) * (6 * n + 2) + 1

theorem weight_lt_sleepWeight (n : ℕ) (l : Pc α) (s : Shared α) :
    weight n l s < sleepWeight n l + 5 := by
  cases l with
  | drop d pc =>
    have := pc.stale_le_one s.inner
    simp only [weight, sleepWeight]
    omega
  | _ =>
    simp only [weight, sleepWeight]
    omega

/-- The data enter the weights through the counters alone, and by one at most. -/
theorem weight_le (n : ℕ) (l : Pc α) (s s' : Shared α) : weight n l s' ≤ weight n l s + 1 := by
  cases l with
  | drop d pc =>
    have := pc.stale_le_one s'.inner
    simp only [weight]
    omega
  | _ =>
    simp only [weight]
    omega

theorem weight_eq (n : ℕ) (l : Pc α) (hpeers : ∀ side : Side, side.peers s'.inner =
    side.peers s.inner) : weight n l s' = weight n l s := by
  cases l with
  | drop d pc =>
    cases pc with
    | exchange side counter => simp only [weight, DropPc.stale, hpeers]
    | _ => rfl
  | _ => rfl

/-- What the potential asks of an action: its thread loses more than the others gain. -/
def Falls (n : ℕ) (a : PcAction α) (l : Pc α) (s : Shared α) (l' : Pc α) (s' : Shared α) : Prop :=
  ∃ rise, (∀ k, weight n k s' ≤ weight n k s + rise) ∧
    weight n l' s' + n * rise + a.rouses n * 5 < weight n l s

/-- A step that leaves the counters alone. -/
theorem falls_of_same {a : PcAction α}
    (hpeers : ∀ side : Side, side.peers s'.inner = side.peers s.inner)
    (h : weight n l' s + a.rouses n * 5 < weight n l s) : Falls n a l s l' s' := by
  refine ⟨0, fun k => (weight_eq n k hpeers).le, ?_⟩
  rw [weight_eq n l' hpeers]
  omega

/-- A step that may change a counter. -/
theorem falls_of_change {a : PcAction α} (h : weight n l' s' + n + a.rouses n * 5 < weight n l s) :
    Falls n a l s l' s' :=
  ⟨1, fun k => weight_le n k s s', by omega⟩

/-- Only the signal after a transfer wakes anybody. -/
theorem op_rouses (n : ℕ) (op : Op α) (pc : OpPc α) :
    (op.action grow t pc).rouses n = 0 ∨
      ∃ r, pc = .notify r ∧ (op.action grow t pc).rouses n = 1 := by
  cases pc with
  | notify r =>
    cases op with
    | waitForMessageUntil => exact Or.inl rfl
    | _ => exact Or.inr ⟨r, rfl, rfl⟩
  | _ =>
    left
    cases op <;> rfl

theorem falls_of_op {h : ℕ} {op : Op α} {pc : OpPc α}
    (hgoes : ((program grow t (.op h op pc)).unprompted Input.inner).Goes s l' s') :
    Falls n (program grow t (.op h op pc)) (.op h op pc) s l' s' := by
  by_cases hret : ∃ r, pc = .ret r
  · obtain ⟨r, rfl⟩ := hret
    cases hgoes
    exact falls_of_same (fun side => rfl) (Nat.zero_lt_one)
  · rw [program_op fun r heq => hret ⟨r, heq⟩] at hgoes ⊢
    rw [Action.unprompted_map] at hgoes
    obtain ⟨pc', rfl, hop⟩ := Action.goes_map hgoes
    have hm := opMoves_of_goes (Action.goes_of_unprompted hop)
    have hlt := hm.weight_lt (start_not_next hop)
    have hpeers : ∀ side : Side, side.peers s'.inner = side.peers s.inner := by
      intro side
      rcases op_inner (Action.goes_of_unprompted hop) with rfl | ⟨-, queue, hinner⟩
      · rfl
      · rw [hinner]
        cases side <;> rfl
    refine falls_of_same hpeers ?_
    rw [Action.rouses_map]
    rcases op_rouses n op pc with hzero | ⟨r, rfl, hone⟩
    · rw [hzero]
      exact hlt
    · -- the weight of the signal allows for the thread that it wakes
      rw [hone]
      cases hm
      simp [weight, Op.weight]

/-- Making a handle: the last step adds to a counter. -/
theorem falls_of_make {m : Making} {pc : MakePc} (hm : MakeMoves t m pc s l' s') :
    Falls n (program grow t (.make m pc)) (.make m pc) s l' s' := by
  have hrouses : (program grow t (.make m pc : Pc α)).rouses n = 0 := by
    cases pc <;> rfl
  cases hm with
  | create =>
    refine falls_of_change ?_
    rw [hrouses]
    simp [weight, MakePc.weight]
  | _ =>
    refine falls_of_same (fun side => rfl) ?_
    rw [hrouses]
    simp [weight, MakePc.weight]

/-- A broadcast wakes everybody. -/
theorem drop_rouses (n : ℕ) (d : Dropping) (pc : DropPc) :
    (program grow t (.drop d pc : Pc α)).rouses n ≤ n := by
  cases pc <;> first | exact le_rfl | exact Nat.zero_le n

/-- An exchange that is repeated has found another value. -/
theorem stale_of_retry {d d' : Dropping} {side : Side} {counter counter' : ℕ}
    (hgoes : ((program grow t (.drop d (.exchange side counter))).unprompted Input.inner).Goes
      s (.drop d' (.exchange side counter')) s') : s' = s ∧ side.peers s.inner ≠ counter := by
  obtain ⟨input, hinput⟩ := hgoes
  cases input with
  | exchange spurious =>
    cases spurious with
    | true => cases hinput
    | false =>
      have heq : compareExchange d side counter false s = _ := Option.some.inj hinput
      simp only [compareExchange, true_and] at heq
      split at heq
      · split at heq <;> cases heq
      · next hne =>
        split at heq <;> cases heq
        exact ⟨rfl, hne⟩
  | _ => cases hinput

open DropPc in
/-- A drop comes nearer to its end, or reads a counter again that has changed. -/
theorem DropMoves.bound_lt {d d' : Dropping} {pc pc' : DropPc}
    (hm : DropMoves t d pc s (.drop d' pc') s') :
    pc'.bound < pc.bound ∨
      ∃ side counter, pc = .exchange side counter ∧ pc' = .exchange side (side.peers s.inner) := by
  by_cases hpc : pc.rank < 17
  · left
    have hlt := hm.rank_lt hpc
    cases pc' with
    | load side => exact absurd (hlt.trans hpc) (Nat.lt_irrefl 17)
    | exchange side counter => exact absurd (hlt.trans hpc) (Nat.lt_irrefl 17)
    | _ =>
      cases pc with
      | load side => exact absurd hpc (Nat.lt_irrefl 17)
      | exchange side counter => exact absurd hpc (Nat.lt_irrefl 17)
      | _ => exact hlt
  · cases hm with
    | retry => exact Or.inr ⟨_, _, rfl, rfl⟩
    | loadZero => exact Or.inl (by simp [bound, rank])
    | load => exact Or.inl (by simp [bound])
    | reachZero => exact Or.inl (by simp [bound, rank])
    | subtract => exact Or.inl (by simp [bound, rank])
    | exchangeZero => exact Or.inl (by simp [bound, rank])
    | broadcast => exact Or.inl (by simp [bound, rank])
    | @destroyCondvar side => exact absurd (by cases side <;> simp [rank]) hpc
    | _ => exact absurd (by simp [rank]) hpc

theorem falls_of_drop {d : Dropping} {pc : DropPc}
    (hgoes : ((program grow t (.drop d pc)).unprompted Input.inner).Goes s l' s') :
    Falls n (program grow t (.drop d pc)) (.drop d pc) s l' s' := by
  have hm := dropMoves_of_goes (Action.goes_of_unprompted hgoes)
  have hrouses : (program grow t (.drop d pc : Pc α)).rouses n ≤ n := drop_rouses n d pc
  cases l' with
  | idle =>
    have hpos : 6 * n + 2 ≤ (pc.bound + 1) * (6 * n + 2) :=
      Nat.le_mul_of_pos_left _ (Nat.succ_pos _)
    refine falls_of_change ?_
    simp only [weight]
    omega
  | op h op opc => cases hm
  | make m mpc => cases hm
  | drop d' pc' =>
    rcases hm.bound_lt with hlt | ⟨side, counter, rfl, rfl⟩
    · have hstale := pc'.stale_le_one s'.inner
      have hmul : (pc'.bound + 1) * (6 * n + 2) + (6 * n + 2) ≤ (pc.bound + 1) * (6 * n + 2) := by
        rw [← Nat.succ_mul]
        exact Nat.mul_le_mul_right _ (Nat.succ_le_succ hlt)
      refine falls_of_change ?_
      simp only [weight]
      omega
    · obtain ⟨rfl, hne⟩ := stale_of_retry hgoes
      refine falls_of_same (fun _ => rfl) ?_
      have hzero : (program grow t (.drop d (.exchange side counter) : Pc α)).rouses n = 0 := rfl
      rw [hzero]
      simp [weight, DropPc.stale, DropPc.bound, hne]

/-- Nothing that is left to an idle thread itself is something to do. -/
theorem idle_still : ¬ ((program grow t (.idle : Pc α)).unprompted Input.inner).Goes s l' s' := by
  rintro ⟨input, hinput⟩
  cases input with
  | exchange spurious => cases spurious <;> cases hinput
  | _ => cases hinput

theorem idle_offers_nothing : ¬ (program grow t (.idle : Pc α)).Offers Input.inner s := by
  rintro ⟨input, r, hinner, hr⟩
  cases input with
  | exchange spurious => cases hr
  | _ => cases hinner

/-- **The potential of a channel's threads.** -/
def potential (grow : ℕ → Option ℕ) (n : ℕ) : Potential (program grow (α := α)) Input.inner n where
  point := weight n
  asleep := sleepWeight n
  wake := 5
  falls := by
    intro t l l' s s' hgoes
    cases l with
    | idle => exact absurd hgoes idle_still
    | op h op pc => exact falls_of_op hgoes
    | make m pc => exact falls_of_make (makeMoves_of_goes (Action.goes_of_unprompted hgoes))
    | drop d pc => exact falls_of_drop hgoes
  sleeps := by
    intro t l cv next late s hwait
    obtain ⟨k, op, pc, rfl, -, rfl⟩ := program_wait hwait
    cases op <;> cases hwait <;> simp [weight, sleepWeight, Op.weight]
  wakes _ := weight_lt_sleepWeight n

/-! ## Rest -/

/-- The step is taken of the threads' own accord: no call begins, no time runs out, nobody wakes up
without a notification, and no exchange fails without a reason. -/
def OwnAccord (c : State α) (i : Event α) : Prop := Unprompted Input.inner c i

/-- The thread is registered in the wait of an operation. -/
def Sleeps (c : State α) (t : Tid) : Prop :=
  ∃ h op late, c.threads t = .blocked op.side (.op h op (.testQueue false)) late ∧
    c.Registered op.side t

/-- The thread is tearing the channel down, and destroys a condition variable on which somebody is
registered. -/
def HeldUp (c : State α) (t : Tid) : Prop :=
  ∃ d side, c.threads t = .running (.drop d (.destroyCondvar side)) ∧ ∃ u, c.Registered side u

/-- The mutex is free, and every thread is idle, registered in the wait of an operation, or held up
in a teardown by those who are. -/
structure Resting (c : State α) : Prop where
  free : c.owner = none
  thread : ∀ t, c.threads t = .running .idle ∨ HeldUp c t ∨ Sleeps c t

/-- Whoever is running, and not idle, has something to do. -/
theorem offers_of_proper (hl : Proper l) (hidle : l ≠ .idle) :
    (program grow t l).Offers Input.inner s := by
  cases l with
  | idle => exact absurd rfl hidle
  | op h op pc =>
    by_cases hret : ∃ r, pc = .ret r
    · obtain ⟨r, rfl⟩ := hret
      trivial
    · have hnot : ∀ r, pc ≠ .ret r := fun r heq => hret ⟨r, heq⟩
      rw [program_op hnot, Action.offers_map]
      exact op_offers hl hnot
  | make m pc => cases pc <;> trivial
  | drop d pc =>
    cases pc with
    | exchange side counter => exact ⟨.exchange false, _, rfl, rfl⟩
    | _ => trivial

/-- Only a teardown waits until nobody is registered. -/
theorem destroyCondvar_of_drain {next : Pc α} (ha : program grow t l = .drain side next) :
    ∃ d, l = .drop d (.destroyCondvar side) := by
  cases l with
  | idle => cases ha
  | op h op pc => cases op <;> cases pc <;> cases ha
  | make m pc => cases pc <;> cases ha
  | drop d pc =>
    cases pc with
    | destroyCondvar side =>
      cases ha
      exact ⟨d, rfl⟩
    | _ => cases ha

theorem resting_iff (hasleep : Asleep c) (hpoints : pointsOutline.Holds c) :
    Resting c ↔ AtRest (program grow) Input.inner c := by
  constructor
  · intro h
    refine ⟨h.free, fun t => ?_⟩
    rcases h.thread t with ht | ⟨d, side, ht, u, hu⟩ | ⟨k, op, late, hb, hreg⟩
    · exact Or.inl ⟨_, ht, Or.inl idle_offers_nothing⟩
    · exact Or.inl ⟨_, ht, Or.inr ⟨side, _, rfl, List.ne_nil_of_mem hu⟩⟩
    · exact Or.inr ⟨_, _, late, hb, hreg⟩
  · intro h
    refine ⟨h.free, fun t => ?_⟩
    rcases h.thread t with ⟨l, hl, hnot | ⟨side, next, ha, hne⟩⟩ | ⟨cv, next, late, hb, hreg⟩
    · left
      rw [hl]
      by_contra hidle
      exact hnot (offers_of_proper (hpoints.running hl) fun heq => hidle (heq ▸ rfl))
    · obtain ⟨d, rfl⟩ := destroyCondvar_of_drain ha
      exact Or.inr (Or.inl ⟨d, side, hl, List.exists_mem_of_ne_nil _ hne⟩)
    · obtain ⟨k, op, rfl, -, rfl⟩ := hasleep t cv next late hb
      exact Or.inr (Or.inr ⟨k, op, late, hb, hreg⟩)

theorem points_of_run (hrun : Run (Step (program grow)) (initial capacity) tr c) :
    Sound c ∧ Asleep c ∧ pointsOutline.Holds c := by
  have hholds := (pointsOutline_valid NeverTogether).run hrun (J := Sound) (sound_initial capacity)
    (fun h hstep => h.step hstep) (fun h => h.apart) ⟨trivial, fun t => trivial⟩
    fun x hx l hl => trivial
  refine ⟨hholds.1.1, ?_, hholds.1.2⟩
  exact hrun.invariant' (fun t cv next late ht => by cases ht) fun h hstep => h.step hstep

/-- **The channel comes to rest**: from every state that a run reaches, the threads can take a
bounded number of steps of their own accord, in whatever order; and they can take no further one
exactly when the mutex is free and every thread is idle, asleep, or held up in a teardown by a
thread that is asleep. -/
theorem comes_to_rest (hrun : Run (Step (program grow)) (initial capacity) tr c) :
    ∃ n, ∀ tr' c', Run (Step (program grow)) c tr' c' → Throughout OwnAccord tr' →
      tr'.length ≤ n ∧ (Resting c' ↔ ∀ i c'', OwnAccord c' i → ¬ Step (program grow) c' i c'') := by
  let ts : Finset Tid := (tr.map fun x => x.2.mover).toFinset
  refine ⟨(potential grow ts.card).total ts c, fun tr' c' hrun' hown => ⟨?_, ?_⟩⟩
  · -- whoever has not moved yet is idle
    have hby : ∀ t, t ∉ ts → Bystander (program grow) Input.inner c t := by
      intro t ht
      refine ⟨.idle, ?_, fun s => idle_offers_nothing⟩
      refine (threads_of_run hrun fun x hx heq => ht ?_).trans rfl
      exact List.mem_toFinset.mpr (List.mem_map.mpr ⟨x, hx, heq⟩)
    have hlength := ((potential grow ts.card).length_le le_rfl hby hrun' hown).1
    omega
  · obtain ⟨hsound, hasleep, hpoints⟩ := points_of_run (hrun.append hrun')
    have hresting : Resting c' ↔ AtRest (program grow) Input.inner c' := resting_iff hasleep hpoints
    rw [hresting]
    refine atRest_iff_stuck hsound.exclusive (disciplined grow) fun t l hl hholding => ?_
    refine offers_of_proper (hpoints.running hl) ?_
    rintro rfl
    cases hholding

/-- A receive of the child has read `dropping` before the parent sets it, and falls asleep after the
parent's broadcast: the parent, about to destroy the condition variable, waits for the child, which
nobody is going to wake. -/
theorem comes_to_rest_held_up : ∃ tr, ∃ c : State ℕ,
    Run (Step (program fun _ => none)) (initial 1) tr c ∧ HeldUp c ⟨0, 0⟩ ∧
      ∀ i c', OwnAccord c i → ¬ Step (program fun _ => none) c i c' := by
  obtain ⟨tr, c, hrun, hmovers, htest⟩ := exists_run_of_exec (program fun _ => none)
    (fun _ i => decide (i.mover ∈ [⟨0, 0⟩, ⟨1, 0⟩])) (initial (α := ℕ) 1)
    ([.ask ⟨0, 0⟩ .fork] ++ making ⟨1, 0⟩ 1 .sender ++ making ⟨1, 0⟩ 1 .receiver ++
      calling ⟨1, 0⟩ 3 .receive 5 ++ .ask ⟨0, 0⟩ (.drop 0) :: runs ⟨0, 0⟩ 8 ++ runs ⟨1, 0⟩ 1 ++
      runs ⟨0, 0⟩ 4)
    (fun c => c.owner = none ∧ ⟨1, 0⟩ ∈ c.waiters .item ∧
      c.threads ⟨0, 0⟩ = .running (.drop ⟨0, 0⟩ (.destroyCondvar .item)) ∧
      c.threads ⟨1, 0⟩ = .blocked .item (.op 3 .receive (.testQueue false)) none) (by decide)
  obtain ⟨hfree, hreg, h₀, h₁⟩ := of_decide_eq_true htest
  have hheld : HeldUp c ⟨0, 0⟩ := ⟨_, .item, h₀, ⟨1, 0⟩, hreg⟩
  have hrest : Resting c := by
    refine ⟨hfree, fun t => ?_⟩
    rcases threads_of_movers hrun (fun x hx => of_decide_eq_true (hmovers x hx)) t with
      hmoved | hunmoved
    · simp only [List.mem_cons, List.not_mem_nil, or_false] at hmoved
      rcases hmoved with rfl | rfl
      · exact Or.inr (Or.inl hheld)
      · exact Or.inr (Or.inr ⟨3, .receive, none, h₁, hreg⟩)
    · exact Or.inl hunmoved
  obtain ⟨n, hn⟩ := comes_to_rest hrun
  exact ⟨tr, c, hrun, hheld, (hn [] c .start (throughout_nil _)).2.mp hrest⟩

/-! ## Nobody sleeps without a reason -/

theorem handed_of_run (hrun : Run (Step (program grow)) (initial capacity) tr c)
    (hd : Everywhere (fun c => c.shared.inner.dropping = false) tr c)
    (hclaims : Throughout (Guarded (Claims side)) tr)
    (hsignals : side = .item → Throughout (SignalsTaker .item) tr)
    (hkeeps : side = .space → Throughout (Guarded (KeepsCapacity grow)) tr) : Handed side c := by
  have hok : Throughout (fun c i => c.shared.inner.dropping = false ∧ Guarded (Claims side) c i ∧
      (side = .item → SignalsTaker .item c i) ∧
        (side = .space → Guarded (KeepsCapacity grow) c i)) tr :=
    fun x hx => ⟨hd.2 x hx, hclaims x hx, fun hside => hsignals hside x hx,
      fun hside => hkeeps hside x hx⟩
  refine hrun.invariant (handed_initial side capacity) ?_ hok
  rintro c i c' h ⟨hset, hi, htaker, hfixed⟩ hstep
  refine h.step hset hi hfixed ?_ hstep
  -- a signal that there is space goes to a send in any case
  cases side with
  | item => exact htaker rfl
  | space => exact signalsTaker_space h

theorem noLostWakeUp_of_run (hrun : Run (Step (program grow)) (initial capacity) tr c)
    (hattends : Throughout Attends tr) : NoLostWakeUp c :=
  hrun.invariant (fun side _ _ t hstranded => by cases hstranded.1)
    (fun h hi hstep => noLostWakeUp_of_attends hstep h hi) hattends

/-- While the reads of `receivers` agree, no push finds the queue full. -/
theorem throughout_keepsCapacity (hrun : Run (Step (program grow)) (initial capacity) tr c)
    (hagrees : Throughout (Guarded (Agrees (some .space))) tr) :
    Throughout (Guarded (KeepsCapacity grow)) tr := by
  rintro x hx l ht h op item rfl hitem hfull
  have hbounded := bounded_of_holds ((ready_of_run hrun hagrees).2 x hx).2
  exact absurd hfull (hbounded.room ht (by cases op <;> first | rfl | cases hitem))

/-- Without a teardown nobody is held up. -/
theorem Resting.of_not_dropping (h : Resting c) (hsound : Sound c)
    (hd : c.shared.inner.dropping = false) (t : Tid) :
    c.threads t = .running .idle ∨ Sleeps c t := by
  refine (h.thread t).imp_right fun hheld => hheld.resolve_left ?_
  rintro ⟨d, side, ht, -⟩
  cases hd.symm.trans (hsound.teardown.running ht d _ rfl rfl)

/-- At rest no broadcast is to come. -/
theorem Resting.not_pending (h : Resting c) : ¬ Pending side c := by
  rintro ⟨t, d, ht⟩
  rcases h.thread t with hidle | ⟨d', side', hdrains, -⟩ | ⟨k, op, late, hb, -⟩
  · cases hidle.symm.trans ht
  · cases hdrains.symm.trans ht
  · cases hb.symm.trans ht

theorem Resting.not_notified (h : Resting c) (t : Tid) : ¬ Notified side c t := by
  rintro ⟨hnot, k, op, pc, late, hb, hside⟩
  rcases h.thread t with hidle | ⟨d', side', hdrains, -⟩ | ⟨k', op', late', hb', hreg⟩
  · cases hidle.symm.trans hb
  · cases hdrains.symm.trans hb
  · cases hb'.symm.trans hb
    exact hnot hreg

/-- **At rest nobody sleeps without a reason**: after a run without a teardown, in which nobody
falls asleep or gives up for want of peers that are alive and the signals that there is an item go
to those who take one, every thread is idle or inside a wait, and a blocking operation that is
asleep has peers that could provide what it waits for, and finds no item, or no space if the deque
has not grown. It does not grow as long as the reads of `receivers` agree. -/
theorem rests_with_reason (hrun : Run (Step (program grow)) (initial capacity) tr c)
    (hd : Everywhere (fun c => c.shared.inner.dropping = false) tr c)
    (hattends : Throughout Attends tr) (hclaims : ∀ side, Throughout (Guarded (Claims side)) tr)
    (hsignals : Throughout (SignalsTaker .item) tr) (hrest : Resting c) :
    (∀ t, c.threads t = .running .idle ∨ ∃ h op late,
      c.threads t = .blocked op.side (.op h op (.testQueue false)) late ∧
        (op.blocks = true → op.side.peers c.shared.inner ≠ 0 ∧
          ((op.side = .space → Throughout (Guarded (KeepsCapacity grow)) tr) →
            op.Unready c.shared.inner))) ∧
    (Throughout (Guarded (Agrees (some .space))) tr →
      Throughout (Guarded (KeepsCapacity grow)) tr) := by
  refine ⟨fun t => ?_, throughout_keepsCapacity hrun⟩
  refine (hrest.of_not_dropping (sound_of_run hrun) hd.1 t).imp_right ?_
  rintro ⟨k, op, late, hb, hreg⟩
  refine ⟨k, op, late, hb, fun hblocks => ?_⟩
  have hstranded : Stranded op.side c t := ⟨hreg, k, op, _, late, hb, hblocks⟩
  constructor
  · intro hpeers
    exact noLostWakeUp_of_run hrun hattends op.side hpeers hrest.not_pending t hstranded
  · intro hkeeps
    by_contra hready
    have hhanded := handed_of_run hrun hd (hclaims op.side) (fun _ => hsignals) hkeeps
    have hqueue : op.side.queueReady c.shared.inner.queue = true := by
      simpa [Op.Unready] using hready
    obtain ⟨u, -, hu⟩ := hhanded.unstranded hrest.free hqueue t hstranded
    exact hrest.not_notified u hu

/-- Two receivers have been waiting, and one of them has got the only message. -/
theorem rests_with_reason_receive : ∃ tr, ∃ c : State ℕ,
    Run (Step (program fun _ => none)) (initial 2) tr c ∧ c.shared.history.results.length = 2 ∧
      c.Registered .item ⟨0, 2⟩ ∧ (.receive : Op ℕ).Unready c.shared.inner ∧
      c.shared.inner.senders ≠ 0 := by
  obtain ⟨tr, c, hrun, hok, htest⟩ := exists_run_of_exec (program fun _ => none)
    (fun c i => decide (c.shared.inner.dropping = false ∧ wakesBlocking c i = true ∧
      Guarded FindsPeers c i ∧ Guarded (Accompanied .item) c i ∧ Guarded (Accompanied .space) c i ∧
      DropsOwn c i ∧ i.mover ∈ [⟨0, 0⟩, ⟨0, 1⟩, ⟨0, 2⟩])) (initial (α := ℕ) 2)
    (making ⟨0, 0⟩ 0 .sender ++ making ⟨0, 0⟩ 0 .receiver ++ calling ⟨0, 1⟩ 2 .receive 6 ++
      calling ⟨0, 2⟩ 2 .receive 6 ++ calling ⟨0, 0⟩ 1 (.trySend 7) 6 ++
      .notify ⟨0, 0⟩ ⟨0, 1⟩ :: runs ⟨0, 0⟩ 2 ++ runs ⟨0, 1⟩ 6)
    (fun c => c.shared.inner.dropping = false ∧ c.owner = none ∧
      c.shared.history.results.length = 2 ∧ ⟨0, 2⟩ ∈ c.waiters .item ∧
      c.threads ⟨0, 0⟩ = .running .idle ∧ c.threads ⟨0, 1⟩ = .running .idle ∧
      c.threads ⟨0, 2⟩ = .blocked .item (.op 2 .receive (.testQueue false)) none) (by decide)
  obtain ⟨hset, hfree, hresults, hreg, h₀, h₁, h₂⟩ := of_decide_eq_true htest
  have hmet := fun x hx => of_decide_eq_true (hok x hx)
  have hd : Everywhere (fun c => c.shared.inner.dropping = false) tr c :=
    ⟨hset, fun x hx => (hmet x hx).1⟩
  have hown : Throughout DropsOwn tr := fun x hx => (hmet x hx).2.2.2.2.2.1
  have hrest : Resting c := by
    refine ⟨hfree, fun t => ?_⟩
    rcases threads_of_movers hrun (fun x hx => (hmet x hx).2.2.2.2.2.2) t with hmoved | hunmoved
    · simp only [List.mem_cons, List.not_mem_nil, or_false] at hmoved
      rcases hmoved with rfl | rfl | rfl
      · exact Or.inl h₀
      · exact Or.inl h₁
      · exact Or.inr (Or.inr ⟨2, .receive, none, h₂, hreg⟩)
    · exact Or.inl hunmoved
  have hclaims : ∀ side, Throughout (Guarded (Claims side)) tr := by
    intro side
    cases side with
    | item => exact throughout_claims hrun hd (fun x hx => (hmet x hx).2.2.2.1) hown
    | space => exact throughout_claims hrun hd (fun x hx => (hmet x hx).2.2.2.2.1) hown
  have hreasons := rests_with_reason hrun hd
    (fun x hx => attends_of_findsPeers (hmet x hx).2.2.1) hclaims
    (fun x hx => signalsTaker_of_wakesBlocking ((owned_of_run hrun).2 x hx).sound (hmet x hx).2.1)
    hrest
  rcases hreasons.1 ⟨0, 2⟩ with hidle | ⟨k, op, late, hb, hreason⟩
  · cases hidle.symm.trans h₂
  · rw [h₂] at hb
    simp only [Thread.blocked.injEq, Pc.op.injEq] at hb
    obtain ⟨-, ⟨-, rfl, -⟩, -⟩ := hb
    obtain ⟨hpeers, hun⟩ := hreason rfl
    exact ⟨tr, c, hrun, hresults, hreg, hun fun heq => (by cases heq), hpeers⟩

end ShmemUtils.Channel
