import ShmemUtils.Channel.CheckedSub
import ShmemUtils.Channel.PeerCounts

/-!
# The drops call `atomic_checked_sub`

The drops of senders and receivers, in all processes, are calls on the two counters. Each step of
the channel is at most one atomic operation on a counter (`counterOp`): the decrement of the drop of
a handle, the `fetch_add` of a value that is made, or the `swap` of the teardown. Step by step, what
a run of the channel does to a counter is a run of the calls with the same operations.
-/

namespace ShmemUtils.Channel

open ShmemUtils.Library ShmemUtils.Library.Monitor

variable {α : Type} {grow : ℕ → Option ℕ} {t : Tid} {l l' : Pc α} {s s' : Shared α}
  {side : Side} {capacity : ℕ} {c c' : State α} {i : Event α} {tr : Trace α} {v v' : Handle}
  {j : ℕ} {d : Dropping} {pc : DropPc} {k k' : CheckedSub.Counter ℕ}

namespace DropPc

/-- Where the call is that a drop makes on the counter of `side`. -/
def Calls (side : Side) (x : CheckedSub.SubPc) : DropPc → Prop
  | .load side' => side' = side → x = .load
  | .exchange side' n => side' = side → ∃ m sub, x = .exchange n m sub
  | .broadcast side' _ => side' = side → x = .returned 0
  | _ => True

/-- Inside the call. -/
def subtracts (side : Side) : DropPc → Bool
  | .load side' => side' = side
  | .exchange side' _ => side' = side
  | _ => false

@[simp] theorem subtracts_exchange (side : Side) (n : ℕ) :
    (exchange side n).subtracts side = true := decide_eq_true rfl

@[simp] theorem subtracts_broadcast (side side' : Side) (reached : Bool) :
    (broadcast side' reached).subtracts side = false := rfl

/-- At the `swap` of the counter. -/
def swaps (side : Side) : DropPc → Bool
  | .swapReceivers => side = .space
  | .swapSenders _ => side = .item
  | _ => false

end DropPc

/-- The operation on the counter of `side` that a move between two points is, if it is one. The
counter is `n` before it and `n'` after it. A drop makes its decrement as it leaves the call. -/
def Pc.counterOp (side : Side) (n n' : ℕ) :
    Pc α → Pc α → Option (Entry (Option ℕ) CheckedSub.AtomicOp ℕ)
  | .drop d pc, .drop _ pc' =>
    if pc.subtracts side then
      if pc'.subtracts side then none else some ⟨some d.handle, .saturatingSub, n'⟩
    else if pc.swaps side then some ⟨none, .swap, n⟩
    else none
  | .make m .create, _ => if m.kind = .ofSide side then some ⟨none, .fetchAdd, n⟩ else none
  | _, _ => none

/-- The operation on the counter of `side` that a step is, if it is one. -/
def counterOp (grow : ℕ → Option ℕ) (side : Side) (x : State α × Event α) :
    Option (Entry (Option ℕ) CheckedSub.AtomicOp ℕ) :=
  match x.1.threads x.2.mover, next (program grow) x.1 x.2 with
  | .running l, some c' =>
    match c'.threads x.2.mover with
    | .running l' => l.counterOp side (side.peers x.1.shared.inner) (side.peers c'.shared.inner) l'
    | _ => none
  | _, _ => none

/-- The operations on the counter of `side` in the steps of a trace, the first one first. -/
def counterHistory (grow : ℕ → Option ℕ) (side : Side) (tr : Trace α) :
    List (Entry (Option ℕ) CheckedSub.AtomicOp ℕ) :=
  (tr.filterMap (counterOp grow side)).reverse

theorem counterOp_of_step (side : Side) (hstep : Step (program grow) c i c')
    (hl : c.threads i.mover = .running l) (hl' : c'.threads i.mover = .running l') :
    counterOp grow side (c, i) =
      l.counterOp side (side.peers c.shared.inner) (side.peers c'.shared.inner) l' := by
  simp only [counterOp, hl, next_of_step hstep, hl']

/-- The drop of a value of `side` has left the call. -/
def Handle.Subtracted (side : Side) (v : Handle) : Prop :=
  v.kind = .ofSide side ∧ (v.phase = .released ∨ v.phase = .gone)

/-- The counter of `side` and the calls on it. -/
structure Tracks (side : Side) (c : State α) (k : CheckedSub.Counter ℕ) : Prop where
  value : k.value = side.peers c.shared.inner
  calls : ∀ {u d pc}, c.threads u = .running (.drop d pc) → pc.Calls side (k.calls d.handle)
  begun : ∀ {j}, (∀ v, c.shared.handles[j]? = some v → v.isLive = true) → k.calls j = .idle
  returned : ∀ {j v}, c.shared.handles[j]? = some v → v.Subtracted side →
    ∃ r, k.calls j = .returned r

/-! ## What a move does to the handles -/

/-- A value is live when it is made. -/
theorem Moves.exists_before (hm : Moves grow t l s l' s') (hv' : s'.handles[j]? = some v')
    (hdead : v'.isLive = false) : ∃ v, s.handles[j]? = some v := by
  have hmodify : ∀ {s : Shared α} {h : ℕ} {f : Handle → Handle} {w : Handle},
      (s.modifyHandle h f).handles[j]? = some w → ∃ v, s.handles[j]? = some v := by
    intro s h f w hv
    obtain ⟨hj, -⟩ := List.getElem?_eq_some_iff.mp hv
    rw [Shared.modifyHandle, List.length_modify] at hj
    exact ⟨_, List.getElem?_eq_getElem hj⟩
  cases hm with
  | asked ha =>
    cases ha with
    | call => exact hmodify hv'
    | make => exact hmodify hv'
    | drop => exact hmodify hv'
    | destroy => exact hmodify hv'
    | fork =>
      rcases Nat.lt_or_ge j s.handles.length with hj | hj
      · exact ⟨_, List.getElem?_eq_getElem hj⟩
      · rw [Shared.fork, List.getElem?_append_right hj] at hv'
        obtain ⟨w, -, rfl⟩ := List.mem_map.mp (List.mem_of_getElem? hv')
        cases hdead
  | op hgoes =>
    rw [(op_handles hgoes).1] at hv'
    exact ⟨_, hv'⟩
  | ret => exact hmodify hv'
  | @make m mpc _ _ _ hmake =>
    cases hmake with
    | panic => exact hmodify hv'
    | create =>
      rcases Nat.lt_or_ge j (s.endBorrow t m.source).handles.length with hj | hj
      · exact hmodify (List.getElem?_eq_getElem hj)
      · rw [Shared.create, List.getElem?_append_right hj] at hv'
        rw [List.mem_singleton.mp (List.mem_of_getElem? hv')] at hdead
        cases hdead
    | _ => exact ⟨_, hv'⟩
  | drop hdrop =>
    cases hdrop <;> first
      | exact ⟨_, hv'⟩
      | exact hmodify hv'

theorem DropMoves.dead (hm : DropMoves t d pc s l' s') (hv : s.handles[d.handle]? = some v)
    (hdead : v.isLive = false) : ∃ v', s'.handles[d.handle]? = some v' ∧ v'.isLive = false := by
  cases hm <;> first
    | exact ⟨v, hv, hdead⟩
    | exact ⟨_, Shared.getElem?_modifyHandle_self _ hv, rfl⟩

/-- A value that is not live stays so. -/
theorem Moves.dead (hm : Moves grow t l s l' s') (hv : s.handles[j]? = some v)
    (hdead : v.isLive = false) : ∃ v', s'.handles[j]? = some v' ∧ v'.isLive = false := by
  rcases hm.handle hv with ⟨w, hw, hborrowed⟩ | ⟨-, hlive, -⟩ | ⟨d, pc, rfl, rfl⟩
  · rw [hborrowed.eq hdead] at hw
    exact ⟨v, hw, hdead⟩
  · rw [Handle.isLive_of_phase hlive] at hdead
    cases hdead
  · cases hm with
    | drop hdrop => exact hdrop.dead hv hdead

theorem Handle.Subtracted.not_live (h : v.Subtracted side) : v.isLive = false := by
  obtain ⟨-, hphase⟩ := h
  unfold Handle.isLive
  rcases hphase with hphase | hphase <;> rw [hphase]

/-- A value leaves the call of its drop in a move of that call. -/
theorem DropMoves.subtracted (hm : DropMoves t d pc s l' s') (hl : Owns t (.drop d pc : Pc α) s)
    (hv' : s'.handles[j]? = some v') (hsub : v'.Subtracted side) :
    (∃ v, s.handles[j]? = some v ∧ v.Subtracted side) ∨
      d.handle = j ∧ pc.subtracts side = true := by
  by_cases hj : d.handle = j
  swap
  · rw [hm.handle_of_ne hj] at hv'
    exact Or.inl ⟨v', hv', hsub⟩
  subst hj
  obtain ⟨v, hv, -, -, hcloses⟩ := hl
  have hset : ∀ (s₁ : Shared α) {phase : Phase}, s₁.handles[d.handle]? = some v →
      (s₁.setPhase d.handle phase).handles[d.handle]? = some v' →
        v' = { v with phase := phase } := by
    intro s₁ phase hv₁ hv'
    exact Option.some.inj (hv'.symm.trans (Shared.getElem?_modifyHandle_self _ hv₁))
  have hleaves : ∀ {side' : Side}, v.kind = .ofSide side' → v'.kind = v.kind → side' = side :=
    fun hkind hsame => ofSide_injective (hkind.symm.trans (hsame.symm.trans hsub.1))
  have hgone : v.kind = .channel ∧ v.phase = .closing ∨ v.phase = .released →
      v'.kind = v.kind → v.Subtracted side := by
    rintro (⟨hkind, -⟩ | hphase) hsame
    · have hchannel := hsub.1.symm.trans (hsame.trans hkind)
      cases side <;> cases hchannel
    · exact ⟨hsame.symm.trans hsub.1, Or.inl hphase⟩
  cases hm with
  | loadZero =>
    refine Or.inr ⟨rfl, decide_eq_true (hleaves hcloses.1 ?_)⟩
    rw [hset _ hv hv']
  | reachZero =>
    refine Or.inr ⟨rfl, decide_eq_true (hleaves hcloses.1 ?_)⟩
    rw [hset _ hv hv']
  | subtract =>
    refine Or.inr ⟨rfl, decide_eq_true (hleaves hcloses.1 ?_)⟩
    rw [hset _ hv hv']
  | exchangeZero =>
    refine Or.inr ⟨rfl, decide_eq_true (hleaves hcloses.1 ?_)⟩
    rw [hset _ hv hv']
  | foreign =>
    refine Or.inl ⟨v, hv, hgone hcloses ?_⟩
    rw [hset _ hv hv']
  | moveAlong =>
    refine Or.inl ⟨v, hv, hgone hcloses.2 ?_⟩
    rw [hset (s.setRefs _ _) hv hv']
  | freeReferences =>
    refine Or.inl ⟨v, hv, hgone hcloses.2 ?_⟩
    rw [hset _ hv hv']
  | _ => exact Or.inl ⟨v', hv', hsub⟩

theorem Moves.subtracted (hm : Moves grow t l s l' s') (hl : Owns t l s)
    (hv' : s'.handles[j]? = some v') (hsub : v'.Subtracted side) :
    (∃ v, s.handles[j]? = some v ∧ v.Subtracted side) ∨
      ∃ d pc, l = .drop d pc ∧ d.handle = j ∧ pc.subtracts side = true := by
  by_cases hdrops : ∃ d pc, l = .drop d pc
  · obtain ⟨d, pc, rfl⟩ := hdrops
    cases hm with
    | drop hdrop =>
      refine (hdrop.subtracted hl hv' hsub).imp_right fun ⟨hj, hpc⟩ => ?_
      exact ⟨d, pc, rfl, hj, hpc⟩
  · obtain ⟨v, hv⟩ := hm.exists_before hv' hsub.not_live
    rcases hm.handle hv with ⟨w, hw, hborrowed⟩ | ⟨rfl, hlive, d, pc, rfl, rfl⟩ | ⟨d, pc, hdrop, -⟩
    · cases hw.symm.trans hv'
      rcases hborrowed with rfl | ⟨users, -, rfl | rfl⟩
      · exact Or.inl ⟨_, hv, hsub⟩
      · exact absurd hsub.not_live (by simp [Handle.isLive])
      · exact absurd hsub.not_live (by simp [Handle.isLive])
    · -- the drop only begins
      have hclosing : v'.phase = .closing := by
        cases hm with
        | asked ha =>
          cases ha with
          | drop hw =>
            rw [Shared.setPhase, Shared.getElem?_modifyHandle_self _ hw] at hv'
            cases hv'
            rfl
          | destroy hw =>
            rw [Shared.getElem?_modifyHandle_self _ hw] at hv'
            cases hv'
            rfl
      rcases hsub.2 with hphase | hphase <;> cases hclosing.symm.trans hphase
    · exact absurd ⟨d, pc, hdrop⟩ hdrops

/-! ## What a move does to a counter -/

/-- The move is no step of a call on the counter of `side`. -/
def Outside (side : Side) (l l' : Pc α) : Prop :=
  (∀ d pc, l = .drop d pc → pc.subtracts side = false) ∧
    ∀ d pc x, l' = .drop d pc → pc.Calls side x

/-- The effect of a move on the counter of `side`, and on the call of the thread. -/
inductive CounterMove (side : Side) (l : Pc α) (s : Shared α) (l' : Pc α) (s' : Shared α) :
    Prop where
  | quiet : Outside side l l' →
      l.counterOp side (side.peers s.inner) (side.peers s'.inner) l' = none →
      side.peers s'.inner = side.peers s.inner → CounterMove side l s l' s'
  | fetchAdd : Outside side l l' →
      l.counterOp side (side.peers s.inner) (side.peers s'.inner) l' =
        some ⟨none, .fetchAdd, side.peers s.inner⟩ →
      side.peers s'.inner = side.peers s.inner + 1 → CounterMove side l s l' s'
  | swap : Outside side l l' →
      l.counterOp side (side.peers s.inner) (side.peers s'.inner) l' =
        some ⟨none, .swap, side.peers s.inner⟩ →
      side.peers s'.inner = 0 → CounterMove side l s l' s'
  | begin {d : Dropping} {v : Handle} : l = .idle → l' = .drop d (.load side) →
      s.handles[d.handle]? = some v → v.phase = .live [] →
      side.peers s'.inner = side.peers s.inner → CounterMove side l s l' s'
  | again {d : Dropping} {pc : DropPc} : l = .drop d pc → pc.subtracts side = true →
      l' = .drop d (.exchange side (side.peers s.inner)) → side.peers s.inner ≠ 0 →
      side.peers s'.inner = side.peers s.inner → CounterMove side l s l' s'
  | zero {d : Dropping} {pc : DropPc} {reached : Bool} : l = .drop d pc →
      pc.subtracts side = true → l' = .drop d (.broadcast side reached) →
      side.peers s.inner = 0 → side.peers s'.inner = side.peers s.inner →
      CounterMove side l s l' s'
  | sub {d : Dropping} {pc : DropPc} : l = .drop d (.exchange side (side.peers s.inner)) →
      l' = .drop d pc → pc.Calls side (.returned (side.peers s.inner - 1)) →
      pc.subtracts side = false →
      side.peers s'.inner = side.peers s.inner - 1 → CounterMove side l s l' s'

theorem peers_setPeers_of_ne {side' : Side} (h : side' ≠ side) (n : ℕ) (inner : Inner α) :
    side.peers (side'.setPeers n inner) = side.peers inner := by
  cases side <;> cases side' <;> first
    | rfl
    | exact absurd rfl h

theorem peers_setPeers (side : Side) (n : ℕ) (inner : Inner α) :
    side.peers (side.setPeers n inner) = n := by
  cases side <;> rfl

/-- A step of the call. -/
theorem DropMoves.counterMove_inside (hm : DropMoves t d pc s l' s')
    (hpc : pc.subtracts side = true) : CounterMove side (.drop d pc) s l' s' := by
  cases hm with
  | loadZero hzero =>
    obtain rfl := of_decide_eq_true hpc
    exact .zero rfl hpc rfl hzero rfl
  | load hpos =>
    obtain rfl := of_decide_eq_true hpc
    exact .again rfl hpc rfl hpos rfl
  | reachZero hone =>
    obtain rfl := of_decide_eq_true hpc
    refine .sub rfl rfl (fun _ => ?_) rfl (peers_setPeers _ _ _)
    rw [hone]
  | subtract =>
    obtain rfl := of_decide_eq_true hpc
    exact .sub rfl rfl trivial rfl (peers_setPeers _ _ _)
  | exchangeZero hzero =>
    obtain rfl := of_decide_eq_true hpc
    exact .zero rfl hpc rfl hzero rfl
  | retry hpos =>
    obtain rfl := of_decide_eq_true hpc
    exact .again rfl hpc rfl hpos rfl
  | _ => cases hpc

theorem counterOp_drop (n n' : ℕ) (hpc : pc.subtracts side = false)
    (hswaps : pc.swaps side = false) : (Pc.drop d pc).counterOp side n n' l' = none := by
  cases l' <;> simp [Pc.counterOp, hpc, hswaps]

/-- A step of the drop outside the call. -/
theorem DropMoves.counterMove_outside (hm : DropMoves t d pc s l' s')
    (hpc : pc.subtracts side = false) : CounterMove side (.drop d pc) s l' s' := by
  have houtside : (∀ d pc x, l' = .drop d pc → DropPc.Calls side x pc) →
      Outside side (.drop d pc) l' := by
    intro hl'
    refine ⟨fun d₁ pc₁ heq => ?_, hl'⟩
    cases heq
    exact hpc
  have hquiet : (∀ d pc x, l' = .drop d pc → DropPc.Calls side x pc) →
      pc.swaps side = false → side.peers s'.inner = side.peers s.inner →
      CounterMove side (.drop d pc) s l' s' :=
    fun hl' hswaps => .quiet (houtside hl') (counterOp_drop _ _ hpc hswaps)
  have hswap : ∀ {d₁ : Dropping} {pc₁ : DropPc}, l' = .drop d₁ pc₁ → (∀ x, pc₁.Calls side x) →
      pc.swaps side = true → side.peers s'.inner = 0 → CounterMove side (.drop d pc) s l' s' := by
    rintro d₁ pc₁ rfl hcalls hswaps hzero
    refine .swap (houtside fun d pc x heq => ?_) ?_ hzero
    · cases heq
      exact hcalls x
    · simp [Pc.counterOp, hpc, hswaps]
  have hfree : ∀ {d₁ : Dropping} {pc₁ : DropPc}, (∀ x, pc₁.Calls side x) →
      ∀ d pc x, Pc.drop d₁ pc₁ = (.drop d pc : Pc α) → pc.Calls side x := by
    intro d₁ pc₁ hcalls d pc x heq
    cases heq
    exact hcalls x
  cases hm with
  | loadZero =>
    exact hquiet (hfree fun x heq => absurd heq (of_decide_eq_false hpc)) rfl rfl
  | load =>
    exact hquiet (hfree fun x heq => absurd heq (of_decide_eq_false hpc)) rfl rfl
  | reachZero =>
    have hside := of_decide_eq_false hpc
    exact hquiet (hfree fun x heq => absurd heq hside) rfl (peers_setPeers_of_ne hside _ _)
  | subtract =>
    have hside := of_decide_eq_false hpc
    exact hquiet (hfree fun x => trivial) rfl (peers_setPeers_of_ne hside _ _)
  | exchangeZero =>
    exact hquiet (hfree fun x heq => absurd heq (of_decide_eq_false hpc)) rfl rfl
  | retry =>
    exact hquiet (hfree fun x heq => absurd heq (of_decide_eq_false hpc)) rfl rfl
  | foreign => exact hquiet (fun d pc x heq => by cases heq) rfl rfl
  | moveAlong => exact hquiet (fun d pc x heq => by cases heq) rfl rfl
  | freeReferences => exact hquiet (fun d pc x heq => by cases heq) rfl rfl
  | swapReceivers =>
    cases side with
    | item => exact hquiet (hfree fun x => trivial) rfl rfl
    | space => exact hswap rfl (fun x => trivial) rfl rfl
  | @swapSenders _ pc' _ hnext =>
    have hcalls : ∀ x, pc'.Calls side x := by
      rcases hnext with rfl | rfl | rfl <;> exact fun x => trivial
    cases side with
    | item => exact hswap rfl hcalls rfl rfl
    | space => exact hquiet (hfree hcalls) rfl rfl
  | broadcastItem hnext =>
    rcases hnext with rfl | rfl <;> exact hquiet (hfree fun x => trivial) rfl rfl
  | lock hnext =>
    rcases hnext with rfl | rfl <;> exact hquiet (hfree fun x => trivial) rfl rfl
  | destroyMutex hnext =>
    rcases hnext with rfl | rfl <;> exact hquiet (hfree fun x => trivial) rfl rfl
  | @destroyCondvar cv _ _ hnext =>
    subst hnext
    cases cv <;> exact hquiet (hfree fun x => trivial) rfl rfl
  | storeDropping =>
    refine hquiet (hfree fun x => trivial) rfl ?_
    cases side <;> rfl
  | dropQueue =>
    refine hquiet (hfree fun x => trivial) rfl ?_
    cases side <;> rfl
  | _ => exact hquiet (hfree fun x => trivial) rfl rfl

theorem DropMoves.counterMove (hm : DropMoves t d pc s l' s') :
    CounterMove side (.drop d pc) s l' s' := by
  cases hpc : pc.subtracts side with
  | true => exact hm.counterMove_inside hpc
  | false => exact hm.counterMove_outside hpc

/-- **What a move does to a counter.** -/
theorem Moves.counterMove (hm : Moves grow t l s l' s') : CounterMove side l s l' s' := by
  have houtside : (∀ d pc, l ≠ .drop d pc) → (∀ d pc, l' ≠ .drop d pc) → Outside side l l' :=
    fun hl hl' => ⟨fun d pc heq => absurd heq (hl d pc), fun d pc x heq => absurd heq (hl' d pc)⟩
  cases hm with
  | asked ha =>
    have hbegins : ∀ {d₁ : Dropping} {pc₁ : DropPc}, (∀ x, pc₁.Calls side x) →
        side.peers s'.inner = side.peers s.inner →
        CounterMove side .idle s (.drop d₁ pc₁) s' := by
      intro d₁ pc₁ hcalls hpeers
      refine .quiet ⟨fun d pc heq => (by cases heq), fun d pc x heq => ?_⟩ rfl hpeers
      cases heq
      exact hcalls x
    cases ha with
    | @drop h v hv _ hlive =>
      by_cases hside : v.kind.dropPc = .load side
      · rw [hside]
        exact .begin rfl rfl hv hlive rfl
      · refine hbegins (fun x => ?_) rfl
        cases hkind : v.kind with
        | channel => trivial
        | sender =>
          rw [hkind] at hside
          exact fun heq => absurd (congrArg DropPc.load heq) hside
        | receiver =>
          rw [hkind] at hside
          exact fun heq => absurd (congrArg DropPc.load heq) hside
    | destroy => exact hbegins (fun x => trivial) rfl
    | call => exact .quiet (houtside (by simp) (by simp)) rfl rfl
    | make => exact .quiet (houtside (by simp) (by simp)) rfl rfl
    | fork => exact .quiet (houtside (by simp) (by simp)) rfl rfl
  | op hgoes =>
    refine .quiet (houtside (by simp) (by simp)) rfl ?_
    rcases op_inner hgoes with rfl | ⟨-, queue, hinner⟩
    · rfl
    · rw [hinner]
      cases side <;> rfl
  | ret => exact .quiet (houtside (by simp) (by simp)) rfl rfl
  | @make m pc _ _ _ hmake =>
    cases hmake with
    | create =>
      have hpeers := peers_create side s t m
      by_cases hkind : m.kind = .ofSide side
      · rw [if_pos hkind] at hpeers
        exact .fetchAdd (houtside (by simp) (by simp)) (if_pos hkind) hpeers
      · rw [if_neg hkind] at hpeers
        exact .quiet (houtside (by simp) (by simp)) (if_neg hkind) hpeers
    | _ => exact .quiet (houtside (by simp) (by simp)) rfl rfl
  | drop hdrop => exact hdrop.counterMove

/-! ## The simulation -/

/-- Before it subtracts, a call can read the counter; with a zero this is its decrement. -/
theorem exists_read (hpc : pc.subtracts side = true) (hcalls : pc.Calls side (k.calls j)) :
    ∃ e, CheckedSub.Step k e (k.goto j (.check k.value)) ∧
      CheckedSub.commit k e = if k.value = 0 then some ⟨some j, .saturatingSub, 0⟩ else none := by
  cases pc with
  | load side' =>
    have hx := hcalls (of_decide_eq_true hpc)
    exact ⟨_, .load hx, by simp [CheckedSub.commit, hx]⟩
  | exchange side' n =>
    obtain ⟨m, sub, hx⟩ := hcalls (of_decide_eq_true hpc)
    exact ⟨.exchange j true, .retry hx (Or.inl rfl), by simp [CheckedSub.commit, hx]⟩
  | _ => cases hpc

theorem commit_check (n : ℕ) : CheckedSub.commit (k.goto j (.check n)) (.run j) = none := by
  simp [CheckedSub.commit]

/-- A value whose drop is inside the call has not left it. -/
theorem not_subtracted (hl : Owns t (.drop d pc : Pc α) s) (hpc : pc.subtracts side = true)
    (hv : s.handles[d.handle]? = some v) : ¬ v.Subtracted side := by
  obtain ⟨w, hw, -, -, hcloses⟩ := hl
  cases hw.symm.trans hv
  rintro ⟨-, hphase⟩
  have hclosing : v.phase = .closing := by
    cases pc with
    | load => exact hcloses.2
    | exchange => exact hcloses.2.1
    | _ => cases hpc
  rcases hphase with hphase | hphase <;> cases hclosing.symm.trans hphase

/-- A move keeps the correspondence when the call of the thread that moves follows it. -/
theorem Tracks.keep (h : Tracks side c k) (howned : Owned c) (hstep : Step (program grow) c i c')
    (hl : c.threads i.mover = .running l) (hl' : c'.threads i.mover = .running l')
    (hm : Moves grow i.mover l c.shared l' c'.shared)
    (hvalue : k'.value = side.peers c'.shared.inner)
    (hmover : ∀ d pc, l' = .drop d pc → pc.Calls side (k'.calls d.handle))
    (hcalls : ∀ j, k'.calls j = k.calls j ∨ ∃ d pc, l' = .drop d pc ∧ d.handle = j ∧
      ∀ v, c.shared.handles[j]? = some v → ¬ v.Subtracted side)
    (hreturned : ∀ d pc v, l = .drop d pc → pc.subtracts side = true →
      c'.shared.handles[d.handle]? = some v → v.Subtracted side →
        ∃ r, k'.calls d.handle = .returned r) : Tracks side c' k' := by
  have howned' := howned.step hstep
  have howns := howned.holds.running hl
  refine ⟨hvalue, fun {u d pc} hu => ?_, fun {j} hlive => ?_, fun {j v} hv hsub => ?_⟩
  · by_cases hmover' : u = i.mover
    · subst hmover'
      cases hl'.symm.trans hu
      exact hmover d pc rfl
    · rcases hcalls d.handle with heq | ⟨d', pc', rfl, heq, -⟩
      · rw [heq]
        rw [hstep.others hmover'] at hu
        exact h.calls hu
      · have hapart := howned'.distinct (Ne.symm hmover') hu hl'
        exact absurd ⟨d, pc, d', pc', rfl, rfl, heq.symm⟩ hapart
  · rcases hcalls j with heq | ⟨d, pc, rfl, rfl, -⟩
    · rw [heq]
      refine h.begun fun v hv => ?_
      by_contra hdead
      obtain ⟨w, hw, hdead'⟩ := hm.dead hv (Bool.eq_false_iff.mpr hdead)
      cases (hlive w hw).symm.trans hdead'
    · obtain ⟨v, hv, -, -, hcloses⟩ := howned'.holds.running hl'
      cases (hlive v hv).symm.trans hcloses.not_live
  · rcases hm.subtracted howns hv hsub with ⟨w, hw, hsub'⟩ | ⟨d, pc, hdrop, rfl, hpc⟩
    · rcases hcalls j with heq | ⟨d, pc, -, -, hnot⟩
      · rw [heq]
        exact h.returned hw hsub'
      · exact absurd hsub' (hnot w hw)
    · exact hreturned d pc v hdrop hpc hv hsub

/-- The same for a step of the call itself. -/
theorem Tracks.follow (h : Tracks side c k) (howned : Owned c) (hstep : Step (program grow) c i c')
    (hl : c.threads i.mover = .running l) (hl' : c'.threads i.mover = .running (.drop d pc))
    (hm : Moves grow i.mover l c.shared (.drop d pc) c'.shared)
    (hvalue : k'.value = side.peers c'.shared.inner) (hx : pc.Calls side (k'.calls d.handle))
    (hothers : ∀ j, j ≠ d.handle → k'.calls j = k.calls j)
    (hnot : ∀ v, c.shared.handles[d.handle]? = some v → ¬ v.Subtracted side)
    (hleft : (∃ r, k'.calls d.handle = .returned r) ∨ pc.subtracts side = true) :
    Tracks side c' k' := by
  refine h.keep howned hstep hl hl' hm hvalue (fun d₁ pc₁ heq => ?_) (fun j => ?_) ?_
  · cases heq
    exact hx
  · by_cases hj : j = d.handle
    · subst hj
      exact Or.inr ⟨d, pc, rfl, rfl, hnot⟩
    · exact Or.inl (hothers j hj)
  · rintro d₁ pc₁ v rfl - hv hsub
    cases hm with
    | drop hdrop =>
      obtain rfl := hdrop.dropping_eq
      rcases hleft with hreturned | hinside
      · exact hreturned
      · exact absurd hsub (not_subtracted ((howned.step hstep).holds.running hl') hinside hv)

/-- A thread that waits, or wakes up, drops nothing. -/
theorem Tracks.still (h : Tracks side c k) (howned : Owned c) (hstep : Step (program grow) c i c')
    (hs : c'.shared = c.shared) (hwait : ∀ l, c.threads i.mover = .running l →
      ∃ cv next late, program grow i.mover l = .wait cv next late) : Tracks side c' k := by
  refine ⟨?_, fun {u d pc} hu => ?_, ?_, ?_⟩
  · rw [hs]
    exact h.value
  · by_cases hmover : u = i.mover
    · subst hmover
      obtain ⟨j, op, opc, heq⟩ := op_of_still howned.holds hstep hwait hu
      cases heq
    · rw [hstep.others hmover] at hu
      exact h.calls hu
  · rw [hs]
    exact h.begun
  · rw [hs]
    exact h.returned

/-- A step of no call on this counter. -/
theorem Tracks.outside (h : Tracks side c k) (howned : Owned c)
    (hstep : Step (program grow) c i c') (hl : c.threads i.mover = .running l)
    (hl' : c'.threads i.mover = .running l') (hm : Moves grow i.mover l c.shared l' c'.shared)
    (houtside : Outside side l l') (hvalue : k'.value = side.peers c'.shared.inner)
    (hcalls : k'.calls = k.calls) : Tracks side c' k' := by
  refine h.keep howned hstep hl hl' hm hvalue (fun d pc heq => houtside.2 d pc _ heq)
    (fun j => Or.inl (congrFun hcalls j)) fun d pc v heq hpc => ?_
  cases (houtside.1 d pc heq).symm.trans hpc

/-- A step of the channel is matched by steps of the calls on the counter of `side`, in which the
same operation takes effect. -/
def Matched (grow : ℕ → Option ℕ) (side : Side) (c : State α) (i : Event α) (c' : State α)
    (k : CheckedSub.Counter ℕ) : Prop :=
  ∃ ktr k', Run CheckedSub.Step k ktr k' ∧ Tracks side c' k' ∧
    ktr.filterMap (fun x => CheckedSub.commit x.1 x.2) = (counterOp grow side (c, i)).toList

theorem Tracks.begin (h : Tracks side c k) (howned : Owned c) (hstep : Step (program grow) c i c')
    (hl : c.threads i.mover = .running .idle)
    (hl' : c'.threads i.mover = .running (.drop d (.load side)))
    (hm : Moves grow i.mover .idle c.shared (.drop d (.load side)) c'.shared)
    (hv : c.shared.handles[d.handle]? = some v) (hlive : v.phase = .live [])
    (hpeers : side.peers c'.shared.inner = side.peers c.shared.inner) :
    Matched grow side c i c' k := by
  have hidle : k.calls d.handle = .idle := h.begun fun w hw => by
    cases hv.symm.trans hw
    exact Handle.isLive_of_phase hlive
  refine ⟨_, _, Run.start.next (.begin hidle), ?_, ?_⟩
  · refine h.follow howned hstep hl hl' hm (h.value.trans hpeers.symm) ?_
      (fun j hj => CheckedSub.Counter.goto_calls_of_ne hj) (fun w hw hsub => ?_)
      (Or.inr (decide_eq_true rfl))
    · exact fun _ => CheckedSub.Counter.goto_calls_self _ _ _
    · cases hv.symm.trans hw
      cases hsub.not_live.symm.trans (Handle.isLive_of_phase hlive)
  · rw [counterOp_of_step side hstep hl hl']
    rfl

/-- The call goes around its loop: it reads the counter, and checks what it has read. -/
theorem Tracks.again (h : Tracks side c k) (howned : Owned c) (hstep : Step (program grow) c i c')
    (hl : c.threads i.mover = .running (.drop d pc)) (hpc : pc.subtracts side = true)
    (hl' : c'.threads i.mover = .running (.drop d (.exchange side (side.peers c.shared.inner))))
    (hm : Moves grow i.mover (.drop d pc) c.shared
      (.drop d (.exchange side (side.peers c.shared.inner))) c'.shared)
    (hpos : side.peers c.shared.inner ≠ 0)
    (hpeers : side.peers c'.shared.inner = side.peers c.shared.inner) :
    Matched grow side c i c' k := by
  obtain ⟨e, hread, hcommit⟩ := exists_read hpc (h.calls hl)
  have hne : k.value ≠ 0 := by rwa [h.value]
  have hcheck := CheckedSub.Step.check (c := k.goto d.handle (.check k.value))
    (Usize.checkedSub_eq (Nat.one_le_iff_ne_zero.mpr hne))
    (CheckedSub.Counter.goto_calls_self _ _ _)
  refine ⟨_, _, (Run.start.next hread).next hcheck, ?_, ?_⟩
  · refine h.follow howned hstep hl hl' hm (h.value.trans hpeers.symm) (fun _ => ?_)
      (fun j hj => ?_) (fun w hw => not_subtracted (howned.holds.running hl) hpc hw)
      (Or.inr (decide_eq_true rfl))
    · rw [CheckedSub.Counter.goto_calls_self, ← h.value]
      exact ⟨_, _, rfl⟩
    · rw [CheckedSub.Counter.goto_calls_of_ne hj, CheckedSub.Counter.goto_calls_of_ne hj]
  · rw [counterOp_of_step side hstep hl hl']
    simp [hcommit, hne, commit_check, Pc.counterOp, hpc]

/-- The call finds zero, and returns it. -/
theorem Tracks.zero {reached : Bool} (h : Tracks side c k) (howned : Owned c)
    (hstep : Step (program grow) c i c') (hl : c.threads i.mover = .running (.drop d pc))
    (hpc : pc.subtracts side = true)
    (hl' : c'.threads i.mover = .running (.drop d (.broadcast side reached)))
    (hm : Moves grow i.mover (.drop d pc) c.shared (.drop d (.broadcast side reached)) c'.shared)
    (hzero : side.peers c.shared.inner = 0)
    (hpeers : side.peers c'.shared.inner = side.peers c.shared.inner) :
    Matched grow side c i c' k := by
  obtain ⟨e, hread, hcommit⟩ := exists_read hpc (h.calls hl)
  have hvalue : k.value = 0 := by rw [h.value, hzero]
  have hnone : Usize.checkedSub k.value 1 = none := by
    rw [hvalue]
    rfl
  have hcheck := CheckedSub.Step.checkZero (c := k.goto d.handle (.check k.value))
    (CheckedSub.Counter.goto_calls_self _ _ _) hnone
  refine ⟨_, _, (Run.start.next hread).next hcheck, ?_, ?_⟩
  · refine h.follow howned hstep hl hl' hm (h.value.trans hpeers.symm) (fun _ => ?_)
      (fun j hj => ?_) (fun w hw => not_subtracted (howned.holds.running hl) hpc hw)
      (Or.inl ⟨0, ?_⟩)
    · exact CheckedSub.Counter.goto_calls_self _ _ _
    · rw [CheckedSub.Counter.goto_calls_of_ne hj, CheckedSub.Counter.goto_calls_of_ne hj]
    · exact CheckedSub.Counter.goto_calls_self _ _ _
  · rw [counterOp_of_step side hstep hl hl', hpeers, hzero]
    simp [hcommit, hvalue, commit_check, Pc.counterOp, hpc]

/-- The exchange succeeds. -/
theorem Tracks.sub (h : Tracks side c k) (howned : Owned c) (hstep : Step (program grow) c i c')
    (hl : c.threads i.mover = .running (.drop d (.exchange side (side.peers c.shared.inner))))
    (hl' : c'.threads i.mover = .running (.drop d pc))
    (hm : Moves grow i.mover (.drop d (.exchange side (side.peers c.shared.inner))) c.shared
      (.drop d pc) c'.shared)
    (hreturns : pc.Calls side (.returned (side.peers c.shared.inner - 1)))
    (hleft : pc.subtracts side = false)
    (hpeers : side.peers c'.shared.inner = side.peers c.shared.inner - 1) :
    Matched grow side c i c' k := by
  obtain ⟨m, sub, hx⟩ := h.calls hl rfl
  have heq : m = side.peers c.shared.inner - 1 := by
    have hsucc := CheckedSub.eq_succ_of_checkedSub sub
    omega
  refine ⟨_, _, Run.start.next (.exchange hx h.value), ?_, ?_⟩
  · refine h.follow howned hstep hl hl' hm (heq.trans hpeers.symm) ?_
      (fun j hj => CheckedSub.Counter.goto_calls_of_ne hj)
      (fun w hw => not_subtracted (howned.holds.running hl) (decide_eq_true rfl) hw)
      (Or.inl ⟨m, CheckedSub.Counter.goto_calls_self _ _ _⟩)
    rw [CheckedSub.Counter.goto_calls_self, heq]
    exact hreturns
  · rw [counterOp_of_step side hstep hl hl', hpeers, ← heq]
    simp [CheckedSub.commit, hx, h.value, Pc.counterOp, hleft]

/-- No operation takes effect where a thread waits, or wakes up. -/
theorem counterOp_of_still (hwait : ∀ l, c.threads i.mover = .running l →
    ∃ cv next late, program grow i.mover l = .wait cv next late) :
    counterOp grow side (c, i) = none := by
  unfold counterOp
  split
  · next l c' hl _ =>
    obtain ⟨cv, next, late, heq⟩ := hwait l hl
    obtain ⟨j, op, opc, rfl⟩ := op_of_wait heq
    split <;> rfl
  · rfl

/-- **The steps of the channel are steps of the calls on the counter.** -/
theorem Tracks.step (h : Tracks side c k) (howned : Owned c) (hstep : Step (program grow) c i c')
    (hword : side.peers c'.shared.inner < usizeLimit) : Matched grow side c i c' k := by
  rcases hstep.moves with ⟨l, l', hl, hl', hgoes⟩ | ⟨hs, hwait⟩
  swap
  · refine ⟨[], k, .start, h.still howned hstep hs hwait, ?_⟩
    rw [counterOp_of_still hwait]
    rfl
  have hm := moves_of_goes hgoes
  have hop := counterOp_of_step side hstep hl hl'
  have hmove : CounterMove side l c.shared l' c'.shared := hm.counterMove
  cases hmove with
  | quiet houtside hnone hpeers =>
    refine ⟨[], k, .start, ?_, by rw [hop, hnone]; rfl⟩
    exact h.outside howned hstep hl hl' hm houtside (h.value.trans hpeers.symm) rfl
  | fetchAdd houtside hsome hpeers =>
    refine ⟨_, _, Run.start.next .fetchAdd, ?_, by rw [hop, hsome, ← h.value]; rfl⟩
    refine h.outside howned hstep hl hl' hm houtside ?_ rfl
    rw [h.value, hpeers]
    exact Nat.mod_eq_of_lt (hpeers ▸ hword)
  | swap houtside hsome hpeers =>
    refine ⟨_, _, Run.start.next .swap, ?_, by rw [hop, hsome, ← h.value]; rfl⟩
    exact h.outside howned hstep hl hl' hm houtside hpeers.symm rfl
  | begin heq heq' hv hlive hpeers =>
    subst heq
    subst heq'
    exact h.begin howned hstep hl hl' hm hv hlive hpeers
  | again heq hpc heq' hpos hpeers =>
    subst heq
    subst heq'
    exact h.again howned hstep hl hpc hl' hm hpos hpeers
  | zero heq hpc heq' hzero hpeers =>
    subst heq
    subst heq'
    exact h.zero howned hstep hl hpc hl' hm hzero hpeers
  | sub heq heq' hreturns hleft hpeers =>
    subst heq
    subst heq'
    exact h.sub howned hstep hl hl' hm hreturns hleft hpeers

theorem tracks_initial (side : Side) (capacity : ℕ) :
    Tracks side (initial (α := α) capacity) (.start 0) where
  value := by cases side <;> rfl
  calls hu := by cases hu
  begun _ := rfl
  returned {j v} hv hsub := by
    have hlive : v.phase = .live [] := by rw [List.mem_singleton.mp (List.mem_of_getElem? hv)]
    cases hsub.not_live.symm.trans (Handle.isLive_of_phase hlive)

/-- **The drops are linearizable**, in a run of the channel in which the counter of `side` stays
below the limit of its word. The operations in the steps of the run are a legal history of the
atomic counter, in which every value whose drop has left its call has exactly one decrement, and a
value that is live has none. They are the operations of a run of calls of `atomic_checked_sub`, with
the calls where the drops are. -/
theorem drops_linearizable (side : Side)
    (hrun : Run (Step (program grow)) (initial capacity) tr c)
    (hword : Everywhere (fun c => side.peers c.shared.inner < usizeLimit) tr c) :
    Legal CheckedSub.AtomicOp.apply 0 (counterHistory grow side tr)
      (side.peers c.shared.inner) ∧
    (∀ (j : ℕ) v, c.shared.handles[j]? = some v → v.Subtracted side →
      ∃ r, ((counterHistory grow side tr).filter fun e => e.caller = some j) =
        [⟨some j, .saturatingSub, r⟩]) ∧
    (∀ (j : ℕ) v, c.shared.handles[j]? = some v → v.isLive = true →
      ((counterHistory grow side tr).filter fun e => e.caller = some j) = []) ∧
    ∃ ktr k, Run CheckedSub.Step (.start 0) ktr k ∧
      CheckedSub.points.history ktr = counterHistory grow side tr ∧ Tracks side c k := by
  obtain ⟨ktr, k, hkrun, ⟨-, htracks⟩, hops⟩ :=
    hrun.simulated (R := fun c k => Owned c ∧ Tracks side c k) (counterOp grow side)
      (fun x => CheckedSub.commit x.1 x.2) hword
      ⟨owned_initial capacity, tracks_initial side capacity⟩ fun ⟨howned, h⟩ hword hstep => by
        obtain ⟨ktr, k', hkrun, h', hop⟩ := h.step howned hstep hword
        exact ⟨ktr, k', hkrun, ⟨howned.step hstep, h'⟩, hop⟩
  have hhistory : CheckedSub.points.history ktr = counterHistory grow side tr :=
    congrArg List.reverse hops
  refine ⟨?_, fun j v hv hsub => ?_, fun j v hv hlive => ?_, ktr, k, hkrun, hhistory, htracks⟩
  · rw [← hhistory, ← htracks.value]
    exact CheckedSub.points.legal hkrun
  · obtain ⟨r, hr⟩ := htracks.returned hv hsub
    have houtcome : (k.calls j).outcome = some r := by
      rw [hr]
      rfl
    obtain ⟨op, ⟨c₁, i₁, c₂, hstep, hcommit⟩, hfilter⟩ :=
      (((CheckedSub.settles j).once hkrun rfl).2 r houtcome).filter_history
    obtain rfl := CheckedSub.op_of_caller hstep hcommit
    exact ⟨r, hhistory ▸ hfilter⟩
  · have hidle : k.calls j = .idle := htracks.begun fun w hw => by
      cases hv.symm.trans hw
      exact hlive
    have habsent := ((CheckedSub.settles j).once hkrun rfl).1 (by rw [hidle]; rfl)
    rw [← hhistory]
    exact CheckedSub.points.filter_history_of_absent habsent

/-- Two senders are dropped at the same time: both drops read two, and one of them reads again. -/
theorem drops_linearizable_race :
    ∃ tr, ∃ c : State ℕ, Run (Step (program fun _ => none)) (initial 1) tr c ∧
      Legal CheckedSub.AtomicOp.apply 0 (counterHistory (fun _ => none) .item tr) 0 ∧
      ∀ j ∈ [1, 2], ∃ r, ((counterHistory (fun _ => none) .item tr).filter
        fun e => e.caller = some j) = [⟨some j, .saturatingSub, r⟩] := by
  obtain ⟨tr, c, hrun, hword, htest⟩ := exists_run_of_exec (program fun _ => none)
    (fun c _ => Side.item.peers c.shared.inner < 3) (initial (α := ℕ) 1)
    (making ⟨0, 0⟩ 0 .sender ++ making ⟨0, 0⟩ 0 .sender ++
      .ask ⟨0, 0⟩ (.drop 1) :: .ask ⟨0, 1⟩ (.drop 2) :: runs ⟨0, 0⟩ 1 ++ runs ⟨0, 1⟩ 1 ++
      [.ask ⟨0, 0⟩ (.exchange false), .ask ⟨0, 1⟩ (.exchange false),
        .ask ⟨0, 1⟩ (.exchange false)])
    (fun c => c.shared.inner.senders = 0 ∧
      c.shared.handles[1]? = some ⟨.sender, 0, 0, 0, .released⟩ ∧
      c.shared.handles[2]? = some ⟨.sender, 0, 0, 0, .released⟩) (by decide)
  obtain ⟨hzero, hfirst, hsecond⟩ := of_decide_eq_true htest
  have heverywhere : Everywhere (fun c => Side.item.peers c.shared.inner < usizeLimit) tr c :=
    ⟨hzero.trans_lt (by decide), fun x hx => (of_decide_eq_true (hword x hx)).trans (by decide)⟩
  obtain ⟨hlegal, hdropped, -⟩ := drops_linearizable .item hrun heverywhere
  refine ⟨tr, c, hrun, hzero ▸ hlegal, fun j hj => ?_⟩
  rcases List.mem_cons.mp hj with rfl | hj
  · exact hdropped 1 _ hfirst ⟨rfl, Or.inl rfl⟩
  · cases List.mem_singleton.mp hj
    exact hdropped 2 _ hsecond ⟨rfl, Or.inl rfl⟩

end ShmemUtils.Channel
