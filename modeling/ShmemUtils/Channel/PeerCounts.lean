import ShmemUtils.Channel.Ownership

/-!
# Counting senders and receivers

Every `Sender` and `Receiver` is counted when it is made, and taken out of the counter when it is
dropped. `fork` copies the values without counting the copies, and the `drop` of a copy takes out
one that still lives in the process that made it.
-/

namespace ShmemUtils.Channel

open ShmemUtils.Library ShmemUtils.Library.Monitor

variable {α : Type} {grow : ℕ → Option ℕ} {t : Tid} {l l' : Pc α} {s s' : Shared α}
  {side : Side} {capacity : ℕ} {c c' : State α} {i : Event α} {tr : Trace α} {v : Handle} {k : ℕ}

/-- A value of `side` that is alive, and its own drop not over, in the process that made it. -/
def Handle.counted (side : Side) (v : Handle) : Bool :=
  v.kind = .ofSide side ∧ v.proc = v.creator ∧ (v.isLive ∨ v.phase = .closing)

namespace Shared

/-- How many values of `side` are alive in the processes that made them. -/
def alive (side : Side) (s : Shared α) : ℕ := s.handles.countP (Handle.counted side)

end Shared

/-- Before the teardown the counters count the values that are alive in the processes that made
them. -/
def PeerCounts (c : State α) : Prop :=
  c.shared.inner.dropping = false → ∀ side, side.peers c.shared.inner = c.shared.alive side

/-- A decrement before the teardown takes effect only for a value of the process that drops it. -/
def DropsOwn (c : State α) (i : Event α) : Prop :=
  match c.threads i.mover, i with
  | .running (.drop d (.exchange side counter)), .ask t (.exchange false) =>
      side.peers c.shared.inner = counter → c.shared.inner.dropping = false →
        ∀ v ∈ c.shared.handles[d.handle]?, v.creator = t.pid
  | _, _ => True

instance (c : State α) (i : Event α) : Decidable (DropsOwn c i) :=
  decidable_of_iff
    ((match c.threads i.mover, i with
      | .running (.drop d (.exchange side counter)), .ask t (.exchange false) =>
          decide (side.peers c.shared.inner = counter → c.shared.inner.dropping = false →
            ∀ v ∈ c.shared.handles[d.handle]?, v.creator = t.pid)
      | _, _ => true) = true)
    (by
      unfold DropsOwn
      split
      · exact decide_eq_true_iff
      · exact iff_of_true rfl trivial)

/-! ## Counting in a list -/

theorem countP_modify {β : Type} (p : β → Bool) (f : β → β) {bs : List β} {b : β}
    (hb : bs[k]? = some b) :
    (bs.modify k f).countP p + (if p b then 1 else 0) = bs.countP p + if p (f b) then 1 else 0 := by
  induction bs generalizing k with
  | nil => cases hb
  | cons a bs ih =>
    cases k with
    | zero =>
      cases hb
      rw [List.modify_zero_cons, List.countP_cons, List.countP_cons]
      omega
    | succ k =>
      have hrest := ih (by simpa using hb)
      rw [List.modify_succ_cons, List.countP_cons, List.countP_cons]
      omega

/-- A change of one handle that is no change to what is counted. -/
theorem countP_modifyHandle (p : Handle → Bool) {f : Handle → Handle}
    (hf : ∀ v, s.handles[k]? = some v → p (f v) = p v) :
    (s.modifyHandle k f).handles.countP p = s.handles.countP p := by
  unfold Shared.modifyHandle
  cases hv : s.handles[k]? with
  | none => rw [List.modify_eq_self (List.getElem?_eq_none_iff.mp hv)]
  | some v =>
    have hcount := countP_modify p f hv
    rw [hf v hv] at hcount
    exact Nat.add_right_cancel hcount

theorem alive_modifyHandle {f : Handle → Handle}
    (hf : ∀ v, s.handles[k]? = some v → (f v).counted side = v.counted side) :
    (s.modifyHandle k f).alive side = s.alive side :=
  countP_modifyHandle (Handle.counted side) hf

theorem alive_release {f : Handle → Handle} (hv : s.handles[k]? = some v)
    (hbefore : v.counted side = true) (hafter : (f v).counted side = false) :
    (s.modifyHandle k f).alive side = s.alive side - 1 := by
  have hcount := countP_modify (Handle.counted side) f hv
  rw [hbefore, hafter] at hcount
  simp only [if_true, Bool.false_eq_true, if_false, Nat.add_zero] at hcount
  exact Nat.eq_sub_of_add_eq hcount

/-! ## Who is counted -/

theorem counted_borrowed {v' : Handle} (hb : Borrowed t v v') :
    v'.counted side = v.counted side := by
  rcases hb with rfl | ⟨users, hphase, rfl | rfl⟩
  · rfl
  · simp [Handle.counted, Handle.isLive, hphase]
  · simp [Handle.counted, Handle.isLive, hphase]

theorem counted_closing {users : List Tid} (hv : v.phase = .live users) :
    Handle.counted side { v with phase := .closing } = v.counted side := by
  simp [Handle.counted, Handle.isLive, hv]

theorem counted_released (side : Side) (v : Handle) :
    Handle.counted side { v with phase := .released } = false := by
  simp [Handle.counted, Handle.isLive]

theorem counted_gone (side : Side) (v : Handle) :
    Handle.counted side { v with phase := .gone } = false := by
  simp [Handle.counted, Handle.isLive]

theorem not_counted_of_kind (h : v.kind ≠ .ofSide side) : v.counted side = false := by
  simp [Handle.counted, h]

/-- At the end of a drop its value is not counted any more. -/
theorem not_counted_of_closes (h : v.kind = .channel ∧ v.phase = .closing ∨ v.phase = .released) :
    v.counted side = false := by
  rcases h with ⟨hkind, -⟩ | hphase
  · exact not_counted_of_kind (by rw [hkind]; cases side <;> simp [Kind.ofSide])
  · simp [Handle.counted, Handle.isLive, hphase]

theorem ofSide_injective {side' : Side} (h : Kind.ofSide side = .ofSide side') :
    side = side' := by
  cases side <;> cases side' <;> first | rfl | cases h

/-! ## One move -/

/-- The value of `side` that a thread is dropping is counted exactly when the thread's process made
it. -/
theorem counted_iff_creator {side' : Side} (hproc : v.proc = t.pid) (hkind : v.kind = .ofSide side')
    (hphase : v.phase = .closing) :
    v.counted side = true ↔ side' = side ∧ v.creator = t.pid := by
  simp only [Handle.counted, hkind, hproc, hphase, decide_eq_true_eq]
  constructor
  · rintro ⟨hside, hcreator, -⟩
    exact ⟨ofSide_injective hside, hcreator.symm⟩
  · rintro ⟨rfl, hcreator⟩
    exact ⟨rfl, hcreator.symm, Or.inr trivial⟩

/-- A release that leaves the counter alone is of a value that was not counted. -/
theorem alive_release_foreign {side' : Side} (hcounts : side'.peers s.inner = s.alive side')
    (hv : s.handles[k]? = some v) (hproc : v.proc = t.pid) (hkind : v.kind = .ofSide side')
    (hphase : v.phase = .closing) (hforeign : side'.peers s.inner = 0 ∨ v.creator ≠ t.pid) :
    (s.setPhase k .released).alive side = s.alive side := by
  refine alive_modifyHandle fun w hw => ?_
  cases hw.symm.trans hv
  rw [counted_released]
  symm
  rw [Bool.eq_false_iff]
  intro hcounted
  obtain ⟨rfl, hcreator⟩ := (counted_iff_creator hproc hkind hphase).mp hcounted
  -- counted, it would show in the counter, or have been made by the process that drops it
  rcases hforeign with hzero | hne
  · rw [hcounts] at hzero
    exact absurd hcounted (by simpa using List.countP_eq_zero.mp hzero v (List.mem_of_getElem? hv))
  · exact hne hcreator

/-- The counters count. -/
def Counts (s : Shared α) : Prop := ∀ side : Side, side.peers s.inner = s.alive side

theorem Counts.of_eq (h : Counts s) (hinner : s'.inner = s.inner)
    (halive : ∀ side, s'.alive side = s.alive side) : Counts s' := by
  intro side
  rw [hinner, halive]
  exact h side

/-- A new value is counted on its own side. -/
theorem peers_create (side : Side) (s : Shared α) (t : Tid) (m : Making) :
    side.peers (s.create t m).inner =
      side.peers s.inner + if m.kind = .ofSide side then 1 else 0 := by
  unfold Shared.create
  cases side <;> cases m.kind <;> rfl

/-- A value is added to the counter of its kind. -/
theorem counts_create {m : Making} (h : Counts s) : Counts (s.create t m) := by
  intro side
  have hgiveBack : (s.endBorrow t m.source).alive side = s.alive side :=
    alive_modifyHandle fun v _ => counted_borrowed (borrowed_giveBack t v)
  have halive : (s.create t m).alive side =
      s.alive side + if m.kind = .ofSide side then 1 else 0 := by
    unfold Shared.alive Shared.create at *
    rw [List.countP_append, hgiveBack, List.countP_singleton]
    simp [Handle.counted, Handle.isLive]
  rw [halive, ← h side, peers_create]

/-- A copy that a fork makes is not counted. -/
theorem counts_fork {pid : ℕ} (h : Counts s) (hknown : ∀ v ∈ s.handles, v.Known s.nextPid) :
    Counts (s.fork pid) := by
  refine h.of_eq rfl fun side => ?_
  unfold Shared.alive Shared.fork
  rw [List.countP_append, Nat.add_eq_left, List.countP_eq_zero]
  intro v hv
  obtain ⟨w, hw, rfl⟩ := List.mem_map.mp hv
  have hcreator := (hknown w (List.mem_filter.mp hw).1).2.1
  -- the copy stands in the new process, which has made nothing yet
  have hne : s.nextPid ≠ w.creator := Nat.ne_of_gt hcreator
  simp [Handle.counted, hne]

/-- A decrement for a value that was counted. -/
theorem counts_decrement {side : Side} (h : Counts s) (hv : s.handles[k]? = some v)
    (hproc : v.proc = t.pid) (hkind : v.kind = .ofSide side) (hphase : v.phase = .closing)
    (hcreator : v.creator = t.pid) :
    Counts ((s.setInner (side.setPeers (side.peers s.inner - 1) s.inner)).setPhase k
      .released) := by
  intro side'
  by_cases hside : side = side'
  · subst hside
    have hcounted := (counted_iff_creator hproc hkind hphase).mpr ⟨rfl, hcreator⟩
    have halive : (s.setPhase k .released).alive side = s.alive side - 1 :=
      alive_release hv hcounted (counted_released side v)
    show side.peers (side.setPeers _ _) = (s.setPhase k .released).alive side
    rw [halive, ← h side]
    cases side <;> rfl
  · -- the other counter: neither side changes
    have halive : (s.setPhase k .released).alive side' = s.alive side' := by
      refine alive_modifyHandle fun w hw => ?_
      cases hw.symm.trans hv
      rw [counted_released, not_counted_of_kind]
      rw [hkind]
      exact fun heq => hside (ofSide_injective heq)
    show side'.peers (side.setPeers _ _) = (s.setPhase k .released).alive side'
    rw [halive, ← h side']
    cases side <;> cases side' <;> first | rfl | exact absurd rfl hside

/-- A release that leaves the counter alone. -/
theorem counts_release {side : Side} (h : Counts s) (hv : s.handles[k]? = some v)
    (hproc : v.proc = t.pid) (hkind : v.kind = .ofSide side) (hphase : v.phase = .closing)
    (hzero : side.peers s.inner = 0) : Counts (s.setPhase k .released) := by
  refine h.of_eq rfl fun side' => ?_
  by_cases hside : side = side'
  · subst hside
    exact alive_release_foreign (h side) hv hproc hkind hphase (Or.inl hzero)
  · refine alive_modifyHandle fun w hw => ?_
    cases hw.symm.trans hv
    rw [counted_released, not_counted_of_kind]
    rw [hkind]
    exact fun heq => hside (ofSide_injective heq)

/-- At the end of its drop a value is not counted already. -/
theorem counts_gone (h : Counts s) (hv : s.handles[k]? = some v)
    (hcloses : v.kind = .channel ∧ v.phase = .closing ∨ v.phase = .released) :
    Counts (s.setPhase k .gone) := by
  refine h.of_eq rfl fun side => alive_modifyHandle fun w hw => ?_
  cases hw.symm.trans hv
  rw [counted_gone, not_counted_of_closes hcloses]

/-- **A move before the teardown keeps the counts**, when a decrement is for a value of the
process that drops it. -/
theorem Moves.counts (hm : Moves grow t l s l' s') (hl : Owns t l s)
    (hknown : ∀ v ∈ s.handles, v.Known s.nextPid) (htear : teardownOutline.running t l s)
    (hd : s'.inner.dropping = false) (h : Counts s)
    (hown : ∀ d side v, l = .drop d (.exchange side (side.peers s.inner)) →
      (l' = .drop d (.broadcast side true) ∨ l' = .drop d .checkPid) →
        s.handles[d.handle]? = some v → v.creator = t.pid) : Counts s' := by
  have hgiveBack : ∀ k side, (s.endBorrow t k).alive side = s.alive side :=
    fun k side => alive_modifyHandle fun v _ => counted_borrowed (borrowed_giveBack t v)
  have hborrow : ∀ k side, (s.modifyHandle k (Handle.borrow t)).alive side = s.alive side :=
    fun k side => alive_modifyHandle fun v _ => counted_borrowed (borrowed_borrow t v)
  cases hm with
  | asked ha =>
    cases ha with
    | call => exact h.of_eq rfl (hborrow _)
    | make => exact h.of_eq rfl (hborrow _)
    | drop hv _ hlive =>
      refine h.of_eq rfl fun side => alive_modifyHandle fun w hw => ?_
      cases hw.symm.trans hv
      exact counted_closing hlive
    | destroy hv _ hlive hkind =>
      refine h.of_eq rfl fun side => alive_modifyHandle fun w hw => ?_
      have hne : w.kind ≠ .ofSide side := by
        rw [Option.some.inj (hw.symm.trans hv), hkind]
        cases side <;> simp [Kind.ofSide]
      rw [not_counted_of_kind hne]
      exact not_counted_of_kind hne
    | fork => exact counts_fork h hknown
  | op hgoes =>
    have hpeers : ∀ side : Side, side.peers s'.inner = side.peers s.inner := by
      intro side
      rcases op_inner hgoes with rfl | ⟨-, queue, hinner⟩
      · rfl
      · rw [hinner]
        cases side <;> rfl
    intro side
    rw [hpeers, h side]
    unfold Shared.alive
    rw [(op_handles hgoes).1]
  | ret => exact h.of_eq rfl (hgiveBack _)
  | make hmake =>
    cases hmake with
    | panic => exact h.of_eq rfl (hgiveBack _)
    | create => exact counts_create h
    | _ => exact h
  | drop hdrop =>
    obtain ⟨v, hv, hproc, -, hcloses⟩ := hl
    cases hdrop with
    | loadZero hzero => exact counts_release h hv hproc hcloses.1 hcloses.2 hzero
    | reachZero =>
      exact counts_decrement h hv hproc hcloses.1 hcloses.2.1 (hown _ _ v rfl (Or.inl rfl) hv)
    | subtract =>
      exact counts_decrement h hv hproc hcloses.1 hcloses.2.1 (hown _ _ v rfl (Or.inr rfl) hv)
    | exchangeZero hzero => exact counts_release h hv hproc hcloses.1 hcloses.2.1 hzero
    | foreign => exact counts_gone h hv hcloses
    | moveAlong => exact counts_gone (s := s.setRefs _ _) h hv hcloses.2
    | freeReferences => exact counts_gone h hv hcloses.2
    -- from here on the teardown is under way, and nothing is promised
    | storeDropping => cases hd
    | swapReceivers =>
      have hset := htear _ _ rfl rfl
      cases hset.symm.trans hd
    | swapSenders =>
      have hset := htear _ _ rfl rfl
      cases hset.symm.trans hd
    | dropQueue =>
      intro side
      have hside := h side
      cases side <;> exact hside
    | _ => exact h

/-! ## One step -/

/-- Where the condition on a decrement applies. -/
theorem dropsOwn_exchange {d : Dropping} {counter : ℕ}
    (ht : c.threads i.mover = .running (.drop d (.exchange side counter)))
    (hi : i = .ask i.mover (.exchange false)) :
    DropsOwn c i ↔ (side.peers c.shared.inner = counter → c.shared.inner.dropping = false →
      ∀ v ∈ c.shared.handles[d.handle]?, v.creator = i.mover.pid) := by
  rw [hi] at ht ⊢
  unfold DropsOwn
  rw [ht]
  exact Iff.rfl

theorem dropsOwn_of_not_exchange
    (h : ∀ d side counter, c.threads i.mover = .running (.drop d (.exchange side counter)) →
      i ≠ .ask i.mover (.exchange false)) : DropsOwn c i := by
  unfold DropsOwn
  split
  · next d side counter t ht =>
    exact absurd rfl (h d side counter ht)
  · trivial

/-- A decrement takes effect only when the exchange does not fail. -/
theorem exchange_of_step (hstep : Step (program grow) c i c') {d : Dropping} {counter : ℕ}
    {pc : DropPc} (ht : c.threads i.mover = .running (.drop d (.exchange side counter)))
    (ht' : c'.threads i.mover = .running (.drop d pc))
    (hpc : pc = .broadcast side true ∨ pc = .checkPid) :
    i = .ask i.mover (.exchange false) := by
  obtain ⟨input, l', hi, hf, hl'⟩ := hstep.of_ask ht rfl
  cases input with
  | exchange spurious =>
    cases spurious with
    | false => exact hi
    | true =>
      cases ht'.symm.trans hl'
      simp only [compareExchange, Bool.true_eq_false, false_and, if_false, Option.some.injEq] at hf
      split at hf
      · rcases hpc with rfl | rfl <;> cases (Prod.mk.inj hf).2
      · rcases hpc with rfl | rfl <;> cases (Prod.mk.inj hf).2
  | _ => cases hf

/-- A step that meets the condition keeps the counts. -/
theorem peerCounts_of_dropsOwn (h : Owned c) (hstep : Step (program grow) c i c')
    (hown : DropsOwn c i) (hcounts : PeerCounts c) : PeerCounts c' := by
  intro hd
  rcases hstep.moves with ⟨l, l', ht, ht', hgoes⟩ | ⟨hs, -⟩
  · have hm := moves_of_goes hgoes
    have hd₀ : c.shared.inner.dropping = false := by
      rw [Bool.eq_false_iff]
      intro hset
      rw [hm.dropping_mono hset] at hd
      cases hd
    refine hm.counts (h.holds.running ht) h.holds.global (h.sound.teardown.running ht) hd
      (hcounts hd₀) fun d side v hl hl' hv => ?_
    subst hl
    -- the move is a decrement, so the condition says whose value it is for
    have hi : i = .ask i.mover (.exchange false) := by
      rcases hl' with rfl | rfl
      · exact exchange_of_step hstep ht ht' (Or.inl rfl)
      · exact exchange_of_step hstep ht ht' (Or.inr rfl)
    exact (dropsOwn_exchange ht hi).mp hown rfl hd₀ v hv
  · rw [hs] at hd ⊢
    exact hcounts hd

/-- A decrement for a copy takes out a value that is still counted. -/
theorem dropsOwn_of_peerCounts (h : Owned c) (hstep : Step (program grow) c i c')
    (hcounts : PeerCounts c) (hcounts' : PeerCounts c') : DropsOwn c i := by
  by_contra hnot
  have hexchange : ∃ d side counter,
      c.threads i.mover = .running (.drop d (.exchange side counter)) ∧
        i = .ask i.mover (.exchange false) := by
    by_contra hnone
    refine hnot (dropsOwn_of_not_exchange fun d side counter ht hi => ?_)
    exact hnone ⟨d, side, counter, ht, hi⟩
  obtain ⟨d, side, counter, ht, hi⟩ := hexchange
  rw [dropsOwn_exchange ht hi] at hnot
  push Not at hnot
  obtain ⟨hpeers, hd, v, hv, hforeign⟩ := hnot
  obtain ⟨v', hv', hproc, -, hkind, hphase, hpos⟩ := h.holds.running ht
  cases hv'.symm.trans hv
  -- the exchange succeeds
  obtain ⟨input, l', hi', hf, -⟩ := hstep.of_ask ht rfl
  cases (Label.ask.inj (hi.symm.trans hi')).2
  simp only [compareExchange, hpeers, true_and, if_true, Option.some.injEq,
    Prod.mk.injEq] at hf
  have hs := hf.1.symm
  -- the value was not counted, so that it is missed nowhere
  have halive : c'.shared.alive side = c.shared.alive side := by
    rw [hs]
    show (c.shared.setPhase d.handle .released).alive side = c.shared.alive side
    exact alive_release_foreign (hcounts hd side) hv hproc hkind hphase (Or.inr hforeign)
  have hafter := hcounts' (by rw [hs]; simpa using hd) side
  have hdecrement : side.peers c'.shared.inner = counter - 1 := by
    rw [hs]
    cases side <;> rfl
  rw [halive, ← hcounts hd side, hdecrement, hpeers] at hafter
  omega

/-! ## Runs -/

/-- A value that is counted as alive is not missed by a counter that reads zero. -/
theorem PeerCounts.unused (h : PeerCounts c) (hd : c.shared.inner.dropping = false)
    (hzero : side.peers c.shared.inner = 0) : ∀ v ∈ c.shared.handles, v.kind = .ofSide side →
      v.proc = v.creator → v.isLive = false := by
  intro v hv hkind hproc
  rw [h hd side] at hzero
  have hnot := List.countP_eq_zero.mp hzero v hv
  rw [Bool.eq_false_iff]
  exact fun hlive => hnot (by simp [Handle.counted, hkind, hproc, hlive])

/-- The counts hold everywhere when the decrements are of the processes' own values, and only
then. -/
theorem everywhere_peerCounts (hrun : Run (Step (program grow)) (initial capacity) tr c) :
    Everywhere PeerCounts tr c ↔ Throughout DropsOwn tr :=
  hrun.everywhere_iff (owned_initial capacity) (fun h hstep => h.step hstep)
    (fun _ side => by cases side <;> rfl) fun h hcounts hstep =>
      ⟨dropsOwn_of_peerCounts h hstep hcounts,
        fun hown => peerCounts_of_dropsOwn h hstep hown hcounts⟩

/-- **The counters count the values that are alive where they were made in exactly the runs whose
decrements are for values of the process that drops them**, and then a counter reads zero only when
no usable value of its kind is left. -/
theorem peerCounts_iff (hrun : Run (Step (program grow)) (initial capacity) tr c) :
    (Everywhere PeerCounts tr c ↔ Throughout DropsOwn tr) ∧
      (Throughout DropsOwn tr → Everywhere (fun c => c.shared.inner.dropping = false →
        ∀ side : Side, side.peers c.shared.inner = 0 → ∀ v ∈ c.shared.handles,
          v.kind = .ofSide side → v.proc = v.creator → v.isLive = false) tr c) := by
  refine ⟨everywhere_peerCounts hrun, fun hown => ?_⟩
  obtain ⟨hlast, hbefore⟩ := (everywhere_peerCounts hrun).mpr hown
  exact ⟨fun hd side hzero => hlast.unused hd hzero,
    fun x hx hd side hzero => (hbefore x hx).unused hd hzero⟩

/-- The parent makes a receiver and forks; parent and child make a sender each, and the parent drops
its receiver. -/
theorem peerCounts_fork : ∃ tr, ∃ c : State ℕ,
    Run (Step (program fun _ => none)) (initial 1) tr c ∧ Everywhere PeerCounts tr c ∧
      c.shared.nextPid = 2 ∧ c.shared.inner.senders = 2 ∧ c.shared.inner.receivers = 0 := by
  obtain ⟨tr, c, hrun, hok, htest⟩ := exists_run_of_exec (program fun _ => none)
    (fun c i => decide (DropsOwn c i)) (initial (α := ℕ) 1)
    (making ⟨0, 0⟩ 0 .receiver ++ [.ask ⟨0, 0⟩ .fork] ++ making ⟨0, 0⟩ 0 .sender ++
      making ⟨1, 0⟩ 2 .sender ++ dropping ⟨0, 0⟩ 1 4)
    (fun c => c.shared.nextPid = 2 ∧ c.shared.inner.senders = 2 ∧ c.shared.inner.receivers = 0)
    (by decide)
  refine ⟨tr, c, hrun, (peerCounts_iff hrun).1.mpr fun x hx => ?_, of_decide_eq_true htest⟩
  exact of_decide_eq_true (hok x hx)

/-- The child drops the copy of a receiver that the parent goes on to use. -/
theorem receivers_zero_after_fork : ¬ ∀ tr (c : State ℕ),
    Run (Step (program fun _ => none)) (initial 1) tr c → c.shared.inner.dropping = false →
      c.shared.inner.receivers = c.shared.alive .space ∧
        (c.shared.inner.receivers = 0 → ∀ v ∈ c.shared.handles, v.kind = .receiver →
          v.proc = v.creator → v.isLive = false) := by
  intro h
  obtain ⟨tr, c, hrun, -, htest⟩ := exists_run_of_exec (program fun _ => none)
    (fun _ _ => true) (initial (α := ℕ) 1)
    (making ⟨0, 0⟩ 0 .receiver ++ [.ask ⟨0, 0⟩ .fork] ++ dropping ⟨1, 0⟩ 3 2)
    (fun c => c.shared.inner.dropping = false ∧ c.shared.inner.receivers = 0 ∧
      c.shared.alive .space = 1) (by decide)
  obtain ⟨hd, hzero, halive⟩ := of_decide_eq_true htest
  have heq := (h tr c hrun hd).1
  rw [hzero, halive] at heq
  cases heq

end ShmemUtils.Channel
