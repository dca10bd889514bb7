import ShmemUtils.Channel.Readiness

/-!
# Waking up the waiters of a side without peers

The counters are outside of the mutex, and a drop that brings one to zero broadcasts without it.
Whoever has found a counter positive in its predicate, and registers after that broadcast, stays
asleep with nobody left to wake it up.
-/

namespace ShmemUtils.Channel

open ShmemUtils.Library ShmemUtils.Library.Monitor

variable {α : Type} {grow : ℕ → Option ℕ} {t u : Tid} {l l' : Pc α} {s s' : Shared α}
  {side : Side} {capacity : ℕ} {c c' : State α} {i : Event α} {tr : Trace α}

namespace Pc

/-- The teardown is about to store zero in the counter that the waiters of `side` read. -/
def zeroes : Side → Pc α → Bool
  | .item, .drop _ (.swapSenders _) => true
  | .space, .drop _ .swapReceivers => true
  | _, _ => false

end Pc

/-- A drop that brought the counter to zero has not broadcast yet. -/
def Pending (side : Side) (c : State α) : Prop :=
  ∃ t d, c.threads t = .running (.drop d (.broadcast side true))

/-- The thread is inside a blocking operation, registered and not notified. -/
def Stranded (side : Side) (c : State α) (t : Tid) : Prop :=
  c.Registered side t ∧ ∃ h op pc late, c.threads t = .blocked side (.op h op pc) late ∧
    op.blocks = true

/-- No wake-up is lost: without peers, and with every drop that brought their counter to zero done
with its broadcast, nobody is left asleep. -/
def NoLostWakeUp (c : State α) : Prop :=
  ∀ side, side.peers c.shared.inner = 0 → ¬ Pending side c → ∀ t, ¬ Stranded side c t

/-- The step strands nobody: an operation that falls asleep has peers, or a broadcast is to come;
and the teardown stores zero in a counter only when nobody waits for it, or a broadcast is to
come. -/
def Attends (c : State α) (i : Event α) : Prop :=
  ∀ side l, c.threads i.mover = .running l →
    (∀ h op, l = .op h op .sleep → op.blocks = true → op.side = side →
      side.peers c.shared.inner ≠ 0 ∨ Pending side c) ∧
    (l.zeroes side = true → (∀ t, ¬ Stranded side c t) ∨ Pending side c)

/-- Whoever blocks waits on its own side. -/
theorem op_wait_side {op : Op α} {pc next : OpPc α} {cv : Side} {late : Option (OpPc α)}
    (h : op.action grow t pc = .wait cv next late) : pc = .sleep ∧ cv = op.side := by
  cases op <;> cases pc <;> cases h <;> exact ⟨rfl, rfl⟩

theorem op_sleep (grow : ℕ → Option ℕ) (t : Tid) {op : Op α} (hop : op.blocks = true) :
    ∃ late, op.action grow t .sleep = .wait op.side (.testQueue false) late := by
  cases op <;> first | exact ⟨_, rfl⟩ | cases hop

/-- The only waits are those of the operations. -/
theorem program_wait {cv : Side} {next : Pc α} {late : Option (Pc α)}
    (h : program grow t l = .wait cv next late) :
    ∃ k op pc, l = .op k op .sleep ∧ cv = op.side ∧ next = .op k op pc := by
  cases l with
  | op k op pc =>
    by_cases hpc : ∃ r, pc = .ret r
    · obtain ⟨r, rfl⟩ := hpc
      cases h
    · rw [program_op fun r heq => hpc ⟨r, heq⟩] at h
      cases hact : op.action grow t pc with
      | wait cv' next' late' =>
        rw [hact] at h
        cases h
        obtain ⟨rfl, hcv⟩ := op_wait_side hact
        exact ⟨k, op, next', rfl, hcv, rfl⟩
      | _ =>
        rw [hact] at h
        cases h
  | idle => cases h
  | make m pc => cases pc <;> cases h
  | drop d pc => cases pc <;> cases h

/-- A counter goes to zero by the decrement of a drop, or in the teardown. -/
theorem Moves.peers_zero (hm : Moves grow t l s l' s') (h : side.peers s'.inner = 0) :
    side.peers s.inner = 0 ∨ (∃ d, l' = .drop d (.broadcast side true)) ∨
      l.zeroes side = true := by
  cases hm with
  | asked ha => exact Or.inl (by rwa [ha.inner] at h)
  | op hgoes =>
    rcases op_inner hgoes with rfl | ⟨-, queue, hinner⟩
    · exact Or.inl h
    · rw [hinner] at h
      cases side <;> exact Or.inl h
  | ret => exact Or.inl h
  | @make m pc _ _ _ hmake =>
    cases hmake with
    | create =>
      unfold Shared.create at h
      cases side <;> cases hk : m.kind <;> simp_all [Side.peers]
    | _ => exact Or.inl h
  | @drop d pc _ _ _ hd =>
    cases hd with
    | @reachZero side' _ hz =>
      cases side <;> cases side' <;> first
        | exact Or.inr (Or.inl ⟨d, rfl⟩)
        | exact Or.inl h
    | @subtract side' _ hpos =>
      cases side <;> cases side' <;> first
        | exact Or.inl h
        | exact absurd h hpos
    | swapReceivers =>
      cases side with
      | item => exact Or.inl h
      | space => exact Or.inr (Or.inr rfl)
    | swapSenders =>
      cases side with
      | item => exact Or.inr (Or.inr rfl)
      | space => exact Or.inl h
    | storeDropping => cases side <;> exact Or.inl h
    | dropQueue => cases side <;> exact Or.inl h
    | _ => exact Or.inl h

/-! ## One step -/

/-- A broadcast is to come after a step, when it was to come before and another thread moves. -/
theorem pending_of_step (hstep : Step (program grow) c i c') (h : Pending side c)
    (hmover : ∀ d, c.threads i.mover ≠ .running (.drop d (.broadcast side true))) :
    Pending side c' := by
  obtain ⟨u, d, hu⟩ := h
  refine ⟨u, d, ?_⟩
  rw [hstep.others fun heq => hmover d (heq ▸ hu)]
  exact hu

theorem pending_before (hstep : Step (program grow) c i c') (h : Pending side c')
    (hmover : ∀ d, c'.threads i.mover ≠ .running (.drop d (.broadcast side true))) :
    Pending side c := by
  obtain ⟨u, d, hu⟩ := h
  refine ⟨u, d, ?_⟩
  rw [← hstep.others fun heq => hmover d (heq ▸ hu)]
  exact hu

/-- The teardown stores zero in one step, and does not broadcast in the same. -/
theorem program_zeroes (grow : ℕ → Option ℕ) (t : Tid) (hl : l.zeroes side = true) :
    ∃ f, program grow t l = .atomic f ∧ (∀ s, side.peers (f s).1.inner = 0) ∧
      ∀ s d, (f s).2 ≠ .drop d (.broadcast side true) := by
  unfold Pc.zeroes at hl
  split at hl
  · refine ⟨_, rfl, fun s => rfl, fun s d heq => ?_⟩
    dsimp only at heq
    split at heq
    · cases heq
    · split at heq <;> cases heq
  · exact ⟨_, rfl, fun s => rfl, fun s d heq => by cases heq⟩
  · cases hl

/-- A step that attends strands nobody. -/
theorem noLostWakeUp_of_attends (hstep : Step (program grow) c i c') (h : NoLostWakeUp c)
    (hattends : Attends c i) : NoLostWakeUp c' := by
  rintro side hpeers hpending t ⟨hreg, k, op, pc, late, hb, hop⟩
  rcases hstep.asleep hb with ⟨hne, hb₀⟩ | ⟨rfl, l, ht, hwait⟩
  · -- asleep already before the step
    have hreg₀ := (hstep.registers hreg).resolve_right hne
    have hstranded : Stranded side c t := ⟨hreg₀, k, op, pc, late, hb₀, hop⟩
    by_cases hzero : side.peers c.shared.inner = 0
    · -- the broadcast that was to come has been made, and has notified the thread
      have hpending₀ : Pending side c := by
        by_contra hnot
        exact h side hzero hnot t hstranded
      by_contra
      apply hpending
      refine pending_of_step hstep hpending₀ fun d hd => ?_
      exact hstep.of_broadcast hd rfl hreg
    · -- the step brings the counter to zero: a drop, which will broadcast, or a teardown
      rcases hstep.moves with ⟨l, l', hl, hl', hgoes⟩ | ⟨hs, -⟩
      · rcases (moves_of_goes hgoes).peers_zero hpeers with hz | ⟨d, rfl⟩ | hzeroes
        · exact hzero hz
        · exact hpending ⟨i.mover, d, hl'⟩
        · rcases (hattends side l hl).2 hzeroes with hnone | hpending₀
          · exact hnone t hstranded
          · refine hpending (pending_of_step hstep hpending₀ fun d hd => ?_)
            rw [hl] at hd
            cases hd
            cases side <;> cases hzeroes
      · rw [hs] at hpeers
        exact hzero hpeers
  · -- asleep by the step itself
    obtain ⟨k', op', pc', rfl, hside, heq⟩ := program_wait hwait
    cases heq
    rcases (hattends side _ ht).1 k op rfl hop hside.symm with hpos | hpending₀
    · rw [(hstep.of_wait ht hwait).2.2] at hpeers
      exact hpos hpeers
    · refine hpending (pending_of_step hstep hpending₀ fun d hd => ?_)
      rw [ht] at hd
      cases hd

/-- A step that does not attend strands somebody. -/
theorem attends_of_noLostWakeUp (hstep : Step (program grow) c i c') (h : NoLostWakeUp c') :
    Attends c i := by
  intro side l ht
  constructor
  · rintro k op rfl hop rfl
    by_contra hnot
    push Not at hnot
    obtain ⟨late, hact⟩ := op_sleep grow i.mover hop
    have hwait : program grow i.mover (.op k op .sleep) =
        .wait op.side (.op k op (.testQueue false)) (late.map (.op k op)) := by
      rw [program_op (by simp), hact]
      rfl
    -- it registers with no peers and no broadcast to come, which is a lost wake-up
    obtain ⟨hb, hreg, hs⟩ := hstep.of_wait ht hwait
    refine h op.side (by rw [hs]; exact hnot.1) (fun hpending => hnot.2 ?_) i.mover
      ⟨hreg, k, op, _, _, hb, hop⟩
    refine pending_before hstep hpending fun d hd => ?_
    rw [hb] at hd
    cases hd
  · intro hzeroes
    by_contra hnot
    push Not at hnot
    obtain ⟨⟨t, hreg, k, op, pc, late, hb, hop⟩, hpending⟩ := hnot
    -- the teardown takes the peers of a registered thread away
    obtain ⟨f, hatomic, hzero, hpc⟩ := program_zeroes grow i.mover hzeroes
    have hne : t ≠ i.mover := by
      rintro rfl
      rw [ht] at hb
      cases hb
    rcases hstep.goes ht with ⟨l', hl', hgoes⟩ | ⟨cv, next, late', hwait, -⟩
    · rw [hatomic] at hgoes
      obtain ⟨hs, rfl⟩ := Prod.mk.inj (show (_, _) = (c'.shared, l') from hgoes)
      refine h side (by rw [← hs]; exact hzero _) (fun hp => hpending ?_) t
        ⟨(hstep.of_atomic ht hatomic).mpr hreg, k, op, pc, late, ?_, hop⟩
      · refine pending_before hstep hp fun d hd => ?_
        rw [hl'] at hd
        exact hpc _ d (Thread.running.inj hd)
      · rw [hstep.others hne]
        exact hb
    · rw [hatomic] at hwait
      cases hwait

/-! ## Runs -/

/-- **No wake-up is lost in exactly the runs whose steps strand nobody**: no operation registers
without peers after the broadcast that was for it, and no teardown takes the peers of a registered
one away. -/
theorem noLostWakeUp_iff (hrun : Run (Step (program grow)) (initial capacity) tr c) :
    Everywhere NoLostWakeUp tr c ↔ Throughout Attends tr :=
  hrun.everywhere_iff (J := fun _ => True) trivial (fun _ _ => trivial)
    (fun side _ _ t hstranded => by cases hstranded.1) fun _ h hstep =>
      ⟨attends_of_noLostWakeUp hstep, noLostWakeUp_of_attends hstep h⟩

/-- A condition that can be evaluated: an operation falls asleep only when it has peers, and nobody
tears the channel down. -/
def FindsPeers (_ : Tid) : Pc α → Shared α → Prop
  | .op _ op .sleep, s => op.side.peers s.inner ≠ 0
  | .drop _ .swapReceivers, _ => False
  | .drop _ (.swapSenders _), _ => False
  | _, _ => True

instance (t : Tid) (l : Pc α) (s : Shared α) : Decidable (FindsPeers t l s) :=
  decidable_of_iff
    ((match l with
      | .op _ op .sleep => decide (op.side.peers s.inner ≠ 0)
      | .drop _ .swapReceivers => false
      | .drop _ (.swapSenders _) => false
      | _ => true) = true)
    (by
      unfold FindsPeers
      split <;> simp)

theorem attends_of_findsPeers (h : Guarded FindsPeers c i) : Attends c i := by
  intro side l ht
  have hl := h l ht
  constructor
  · rintro k op rfl - rfl
    exact Or.inl hl
  · intro hzeroes
    unfold Pc.zeroes at hzeroes
    split at hzeroes
    · exact hl.elim
    · exact hl.elim
    · cases hzeroes

/-- A receiver falls asleep, and is woken up when the sender is dropped. -/
theorem noLostWakeUp_receive : ∃ tr, ∃ c : State ℕ,
    Run (Step (program fun _ => none)) (initial 1) tr c ∧ Everywhere NoLostWakeUp tr c ∧
      c.shared.history.results.length = 1 := by
  obtain ⟨tr, c, hrun, hok, htest⟩ := exists_run_of_exec (program fun _ => none)
    (fun c i => decide (Guarded FindsPeers c i)) (initial (α := ℕ) 1)
    (making ⟨0, 0⟩ 0 .sender ++ making ⟨0, 0⟩ 0 .receiver ++ calling ⟨0, 1⟩ 2 .receive 6 ++
      dropping ⟨0, 0⟩ 1 4 ++ runs ⟨0, 1⟩ 6)
    (fun c => c.shared.history.results.length = 1) (by decide)
  refine ⟨tr, c, hrun, (noLostWakeUp_iff hrun).mpr fun x hx => ?_, of_decide_eq_true htest⟩
  exact attends_of_findsPeers (of_decide_eq_true (hok x hx))

/-- The sender is dropped after the receiver has evaluated its predicate and before it registers. -/
theorem receive_misses_disconnect : ¬ ∀ tr (c : State ℕ),
    Run (Step (program fun _ => none)) (initial 1) tr c → NoLostWakeUp c := by
  intro h
  obtain ⟨tr, c, hrun, hmovers, htest⟩ := exists_run_of_exec (program fun _ => none)
    (fun _ i => i.mover ∈ [⟨0, 0⟩, ⟨0, 1⟩]) (initial (α := ℕ) 1)
    (making ⟨0, 0⟩ 0 .sender ++ making ⟨0, 0⟩ 0 .receiver ++ calling ⟨0, 1⟩ 2 .receive 5 ++
      dropping ⟨0, 0⟩ 1 4 ++ runs ⟨0, 1⟩ 1)
    (fun c => c.shared.inner.senders = 0 ∧ c.threads ⟨0, 0⟩ = .running .idle ∧
      c.threads ⟨0, 1⟩ = .blocked .item (.op 2 .receive (.testQueue false)) none ∧
      ⟨0, 1⟩ ∈ c.waiters .item) (by decide)
  obtain ⟨hsenders, hidle, hb, hreg⟩ := of_decide_eq_true htest
  refine h tr c hrun .item hsenders ?_ ⟨0, 1⟩ ⟨hreg, 2, .receive, _, _, hb, rfl⟩
  -- of the threads that moved, none is about to broadcast
  rintro ⟨u, d, hu⟩
  rcases threads_of_movers hrun (fun x hx => of_decide_eq_true (hmovers x hx)) u with
    hmoved | hunmoved
  · simp only [List.mem_cons, List.not_mem_nil, or_false] at hmoved
    rcases hmoved with rfl | rfl
    · cases hidle.symm.trans hu
    · cases hb.symm.trans hu
  · -- no other thread has moved
    cases hunmoved.symm.trans hu

end ShmemUtils.Channel
