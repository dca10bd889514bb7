import ShmemUtils.Library.Census
import ShmemUtils.Channel.New
import ShmemUtils.Channel.Release
import ShmemUtils.Channel.PeerCounts

/-!
# The life of a channel in one process

Without a fork the counter of the process counts the handles that remain, and those that are being
made. The thread that takes it to zero finds all other handles gone and all other threads idle, so
that the teardown is its own, and happens once.
-/

namespace ShmemUtils.Channel

open ShmemUtils.Allocator ShmemUtils.Library ShmemUtils.Library.Monitor

variable {α : Type} {grow : ℕ → Option ℕ} {t u : Tid} {l l' : Pc α} {s s' : Shared α}
  {capacity k : ℕ} {c c' : State α} {i : Event α} {tr : Trace α} {d : Dropping} {pc : DropPc}
  {v : Handle}

namespace DropPc

/-- After the decrease, which found the last reference. -/
def decreased : DropPc → Bool
  | .storeDropping => true
  | pc => pc.tearingDown

end DropPc

namespace Pc

/-- The handle that the thread is using, or dropping. -/
def handle? : Pc α → Option ℕ
  | .idle => none
  | .op h _ _ => some h
  | .make m _ => some m.source
  | .drop d _ => some d.handle

/-- Neither in a teardown, nor about to reset the counter of a process that it does not know. -/
def calm : Pc α → Bool
  | .make _ (.resetCounter _) => false
  | .drop _ pc => !pc.decreased
  | _ => true

end Pc

namespace Handle

/-- The drop of the value is not over. -/
def remains (v : Handle) : Bool := v.phase ≠ .gone

end Handle

namespace Shared

/-- How many values remain. -/
def remaining (s : Shared α) : ℕ := s.handles.countP Handle.remains

end Shared

namespace Label

def forks : Event α → Bool
  | .ask _ .fork => true
  | _ => false

end Label

/-- The thread has increased the counter for a value that it is about to make. -/
def Maker (c : State α) (u : Tid) : Prop := ∃ m, c.threads u = .running (.make m .create)

/-- What takes up memory: a value that remains, or the frame of a call that makes one. -/
def Occupies (c : State α) : ℕ ⊕ Tid → Prop
  | .inl k => ∃ v, c.shared.handles[k]? = some v ∧ v.remains = true
  | .inr u => ∃ m pc, c.threads u = .running (.make m pc)

/-- Whatever takes up memory has an address of its own, of 64 bits, and none is at null. -/
def Addressed (c : State α) : Prop :=
  ∃ address : ℕ ⊕ Tid → ℕ,
    (∀ x, Occupies c x → 0 < address x ∧ address x < usizeLimit) ∧
    ∀ x y, Occupies c x → Occupies c y → address x = address y → x = y

/-! ## Stages of the life -/

/-- No teardown has begun, and the mutex is that of process 0. -/
structure Intact (s : Shared α) : Prop where
  dropping : s.inner.dropping = false
  creatorPid : s.inner.creatorPid = 0
  queueFrees : s.queueFrees = 0
  innerFrees : s.innerFrees = 0

/-- The threads that have increased the counter for a value that they are about to make. -/
structure Makers (c : State α) (us : List Tid) : Prop where
  nodup : us.Nodup
  mem : ∀ u, u ∈ us ↔ Maker c u

/-- Before the teardown the counter of the process is right. -/
structure Counting (c : State α) : Prop where
  calm : ∀ {u l}, c.threads u = .running l → l.calm = true
  counts : ∃ us, Makers c us ∧ c.shared.refs 0 = ⟨us.length + c.shared.remaining, 0⟩
  remains : 0 < c.shared.remaining
  intact : Intact c.shared

/-- During the teardown one thread is at work, on the last handle. -/
structure Last (t : Tid) (d : Dropping) (pc : DropPc) (c : State α) : Prop where
  running : c.threads t = .running (.drop d pc)
  others : OthersIdle t c
  gone : ∀ k v, k ≠ d.handle → c.shared.handles[k]? = some v → v.phase = .gone
  dropping : pc = .storeDropping → c.shared.inner.dropping = false
  releases : ∃ s₀ : Shared α, Intact s₀ ∧ pc.Releases t s₀ c.shared

/-- After the teardown. -/
structure Over (c : State α) : Prop where
  idle : ∀ u, c.threads u = .running .idle
  gone : ∀ v ∈ c.shared.handles, v.phase = .gone
  dropping : c.shared.inner.dropping = true
  released : Released c.shared

/-- What a run in one process keeps. -/
structure Life (c : State α) : Prop where
  owned : Owned c
  single : c.shared.nextPid = 1
  stage : Counting c ∨ (∃ t d pc, Last t d pc c) ∨ Over c

/-! ## Counting what remains -/

theorem remains_borrowed {w : Handle} (hb : Borrowed t v w) : w.remains = v.remains := by
  rcases hb with rfl | ⟨users, hphase, rfl | rfl⟩
  · rfl
  · simp [Handle.remains, hphase]
  · simp [Handle.remains, hphase]

/-- A handle that remains keeps remaining in another phase of its life. -/
theorem remaining_setPhase {phase : Phase} (hv : s.handles[k]? = some v)
    (hremains : v.phase ≠ .gone) (hphase : phase ≠ .gone) :
    (s.setPhase k phase).remaining = s.remaining := by
  refine countP_modifyHandle Handle.remains fun w hw => ?_
  cases hw.symm.trans hv
  simp [Handle.remains, hremains, hphase]

theorem remaining_gone (hv : s.handles[k]? = some v) (hremains : v.phase ≠ .gone) :
    (s.setPhase k .gone).remaining + 1 = s.remaining := by
  have hcount := countP_modify Handle.remains (fun v => { v with phase := .gone }) hv
  simp only [Handle.remains, hremains, ne_eq, not_true_eq_false, not_false_eq_true, decide_false,
    decide_true, if_true, Bool.false_eq_true, if_false, Nat.add_zero] at hcount
  exact hcount

theorem remaining_create {m : Making} : (s.create t m).remaining = s.remaining + 1 := by
  have hback : (s.endBorrow t m.source).remaining = s.remaining :=
    countP_modifyHandle Handle.remains fun v _ => remains_borrowed (borrowed_giveBack t v)
  unfold Shared.remaining Shared.create at *
  rw [List.countP_append, hback, List.countP_singleton]
  simp [Handle.remains]

/-- When one value remains, the others are gone. -/
theorem gone_of_remaining (h : s.remaining = 1) (hv : s.handles[k]? = some v)
    (hremains : v.phase ≠ .gone) {j : ℕ} {w : Handle} (hj : j ≠ k)
    (hw : s.handles[j]? = some w) : w.phase = .gone := by
  have hzero : (s.setPhase k .gone).remaining = 0 := by
    have hcount := remaining_gone hv hremains
    omega
  have hmem : w ∈ (s.setPhase k .gone).handles := by
    apply List.mem_of_getElem?
    rw [Shared.setPhase, Shared.getElem?_modifyHandle_of_ne _ (Ne.symm hj)]
    exact hw
  have hnot := List.countP_eq_zero.mp hzero w hmem
  simpa [Handle.remains] using hnot

theorem remaining_pos (hv : s.handles[k]? = some v) (hremains : v.phase ≠ .gone) :
    0 < s.remaining :=
  List.countP_pos_iff.mpr ⟨v, List.mem_of_getElem? hv, by simp [Handle.remains, hremains]⟩

/-! ## The address space -/

/-- The values that remain, by their numbers. -/
theorem remaining_eq_length (s : Shared α) :
    ((List.finRange s.handles.length).filter fun k => (s.handles.get k).remains).length =
      s.remaining := by
  have hall : (List.finRange s.handles.length).map s.handles.get = s.handles :=
    List.map_get_finRange _
  rw [← List.countP_eq_length_filter]
  conv_rhs => rw [Shared.remaining, ← hall, List.countP_map]
  rfl

/-- **The counter cannot wrap**: there is no room for so many values. -/
theorem Addressed.lt (h : Addressed c) {us : List Tid} (hnodup : us.Nodup)
    (hmaking : ∀ u ∈ us, ∃ m pc, c.threads u = .running (.make m pc)) :
    us.length + c.shared.remaining < usizeLimit := by
  obtain ⟨address, hrange, hinjective⟩ := h
  let remaining := (List.finRange c.shared.handles.length).filter
    fun k => (c.shared.handles.get k).remains
  let xs : List (ℕ ⊕ Tid) := us.map .inr ++ remaining.map fun k => .inl k.val
  have hoccupies : ∀ x ∈ xs, Occupies c x := by
    intro x hx
    rcases List.mem_append.mp hx with hmaker | hvalue
    · obtain ⟨u, hu, rfl⟩ := List.mem_map.mp hmaker
      exact hmaking u hu
    · obtain ⟨k, hk, rfl⟩ := List.mem_map.mp hvalue
      exact ⟨_, List.getElem?_eq_getElem k.isLt, (List.mem_filter.mp hk).2⟩
  have hdistinct : xs.Nodup := by
    refine List.nodup_append.mpr ⟨hnodup.map Sum.inr_injective, ?_, ?_⟩
    · exact ((List.nodup_finRange _).filter _).map (Sum.inl_injective.comp Fin.val_injective)
    · intro x hx y hy heq
      obtain ⟨u, -, rfl⟩ := List.mem_map.mp hx
      obtain ⟨k, -, hk⟩ := List.mem_map.mp hy
      cases hk.trans heq.symm
  -- as many addresses, between null and the end of the address space
  have haddresses : (xs.map address).Nodup :=
    hdistinct.map_on fun x hx y hy => hinjective x y (hoccupies x hx) (hoccupies y hy)
  have hspace : xs.map address ⊆ List.range' 1 (usizeLimit - 1) := by
    intro a ha
    obtain ⟨x, hx, rfl⟩ := List.mem_map.mp ha
    obtain ⟨hpos, hlt⟩ := hrange x (hoccupies x hx)
    rw [List.mem_range'_1]
    omega
  have hlength : xs.length = us.length + c.shared.remaining := by
    rw [List.length_append, List.length_map, List.length_map, remaining_eq_length]
  have hle := (List.subperm_of_subset haddresses hspace).length_le
  rw [List.length_map, List.length_range', hlength] at hle
  have hword : 0 < usizeLimit := Nat.two_pow_pos 64
  omega

/-! ## What a move does to the counter -/

/-- The effect of a move on the counter of process 0, and on what it counts. -/
inductive Tally (l : Pc α) (s : Shared α) (l' : Pc α) (s' : Shared α) : Prop where
  | quiet : l'.calm = true → (∀ m, l ≠ .make m .create) → (∀ m, l' ≠ .make m .create) →
      s'.refs 0 = s.refs 0 → s'.remaining = s.remaining → Tally l s l' s'
  | increase {m : Making} : l = .make m .addCounter → l' = .make m .create →
      s'.refs 0 = ⟨Usize.wrappingAdd (s.refs 0).counter 1, 0⟩ → s'.remaining = s.remaining →
      Tally l s l' s'
  | create {m : Making} : l = .make m .create → l' = .idle → s'.refs 0 = s.refs 0 →
      s'.remaining = s.remaining + 1 → Tally l s l' s'
  | moveAlong {d : Dropping} : l = .drop d .subCounter → l' = .idle → (s.refs 0).counter ≠ 1 →
      s'.refs 0 = ⟨Usize.wrappingSub (s.refs 0).counter 1, 0⟩ →
      s'.handles = (s.setPhase d.handle .gone).handles → Tally l s l' s'
  | last {d : Dropping} : l = .drop d .subCounter → l' = .drop d .storeDropping →
      (s.refs 0).counter = 1 → s'.handles = s.handles → Tally l s l' s'

theorem refs_setRefs (s : Shared α) (r : PerProcessReferences) (ht : t.pid = 0) :
    (s.setRefs t.pid r).refs 0 = r := by
  rw [ht]
  show (if 0 = 0 then r else s.refs 0) = r
  exact if_pos rfl

/-- A swap of the pid changes nothing in the process that the counter knows. -/
theorem refs_swapPid (s : Shared α) (ht : t.pid = 0) (hpid : (s.refs 0).pid = 0) :
    (s.setRefs t.pid { s.refs t.pid with pid := t.pid }).refs 0 = s.refs 0 := by
  rw [refs_setRefs s _ ht, ht]
  cases hrefs : s.refs 0 with
  | mk counter pid =>
    rw [hrefs] at hpid
    exact congrArg _ hpid.symm

theorem Asked.tally {input : Input α} (ha : Asked t s input s' l')
    (hsame : s'.nextPid = s.nextPid) :
    Tally (.idle : Pc α) s l' s' := by
  have hborrow : ∀ k, (s.modifyHandle k (Handle.borrow t)).remaining = s.remaining :=
    fun k => countP_modifyHandle Handle.remains fun v _ => remains_borrowed (borrowed_borrow t v)
  cases ha with
  | call =>
    exact .quiet rfl (fun m heq => by cases heq) (fun m heq => by cases heq) rfl (hborrow _)
  | make =>
    exact .quiet rfl (fun m heq => by cases heq) (fun m heq => by cases heq) rfl (hborrow _)
  | @drop k v hv _ hphase =>
    refine .quiet ?_ (fun m heq => by cases heq) (fun m heq => by cases heq) rfl
      (remaining_setPhase hv (by simp [hphase]) (by simp))
    cases hkind : v.kind <;> rfl
  | @destroy k v hv _ hphase =>
    refine .quiet rfl (fun m heq => by cases heq) (fun m heq => by cases heq) rfl ?_
    refine countP_modifyHandle Handle.remains fun w hw => ?_
    cases hw.symm.trans hv
    simp [Handle.remains, hphase]
  | fork => exact absurd hsame (Nat.succ_ne_self _)

/-- An operation changes the counter of no process. -/
theorem op_refs {op : Op α} {opc opc' : OpPc α} (hgoes : (op.action grow t opc).Goes s opc' s') :
    s'.refs = s.refs := by
  rcases op_transfer hgoes with rfl | ⟨-, ⟨item, -, hs⟩ | ⟨-, item, hs⟩⟩
  · rfl
  · obtain ⟨queue, -, rfl⟩ := Option.map_eq_some_iff.mp hs
    rfl
  · obtain ⟨r, -, heq⟩ := Option.map_eq_some_iff.mp hs
    cases heq
    rfl

theorem MakeMoves.tally {m : Making} {mpc : MakePc} (hm : MakeMoves t m mpc s l' s')
    (ht : t.pid = 0) (hpid : (s.refs 0).pid = 0)
    (hcalm : (Pc.make m mpc : Pc α).calm = true) : Tally (.make m mpc) s l' s' := by
  have hother : ¬ (s.refs t.pid).pid ≠ t.pid := by rw [ht, hpid]; exact not_not.mpr rfl
  cases hm with
  | loadCounter =>
    exact .quiet rfl (fun m heq => by cases heq) (fun m heq => by cases heq) rfl rfl
  | samePid =>
    exact .quiet rfl (fun m heq => by cases heq) (fun m heq => by cases heq)
      (refs_swapPid s ht hpid) rfl
  | panic hne => exact absurd hne hother
  | otherPid hne => exact absurd hne hother
  | addCounter =>
    refine .increase rfl rfl ?_ rfl
    rw [refs_setRefs s _ ht, ht]
    exact congrArg _ hpid
  | resetCounter => cases hcalm
  | create => exact .create rfl rfl rfl remaining_create

theorem DropMoves.tally (hm : DropMoves t d pc s l' s') (hl : Owns t (.drop d pc : Pc α) s)
    (ht : t.pid = 0) (hpid : (s.refs 0).pid = 0) (hzero : ∀ v ∈ s.handles, v.originalPid = 0)
    (hcalm : (Pc.drop d pc : Pc α).calm = true) : Tally (.drop d pc) s l' s' := by
  obtain ⟨v, hv, -, horiginal, hcloses⟩ := hl
  have hreleased : (s.setPhase d.handle .released).remaining = s.remaining :=
    remaining_setPhase hv hcloses.not_gone (by simp)
  have hquiet : ∀ {s₁ : Shared α} {pc' : DropPc}, pc'.decreased = false → s₁.refs 0 = s.refs 0 →
      s₁.remaining = s.remaining → Tally (.drop d pc) s (.drop d pc') s₁ :=
    fun hpc' hrefs hremaining => .quiet (by simp [Pc.calm, hpc']) (fun m heq => by cases heq)
      (fun m heq => by cases heq) hrefs hremaining
  cases hm with
  | loadZero => exact hquiet rfl rfl hreleased
  | load => exact hquiet rfl rfl rfl
  | reachZero => exact hquiet rfl rfl hreleased
  | subtract => exact hquiet rfl rfl hreleased
  | exchangeZero => exact hquiet rfl rfl hreleased
  | retry => exact hquiet rfl rfl rfl
  | broadcast => exact hquiet rfl rfl rfl
  | foreign hne =>
    rw [← horiginal, hzero v (List.mem_of_getElem? hv), ht] at hne
    exact absurd rfl hne
  | owner => exact hquiet rfl rfl rfl
  | samePid => exact hquiet rfl (refs_swapPid s ht hpid) rfl
  | otherPid hne =>
    rw [ht, hpid] at hne
    exact absurd rfl hne
  | last hcounter =>
    rw [ht] at hcounter
    exact .last rfl rfl hcounter rfl
  | moveAlong hcounter =>
    rw [ht] at hcounter
    refine .moveAlong rfl rfl hcounter ?_ rfl
    show (s.setRefs t.pid _).refs 0 = _
    rw [refs_setRefs s _ ht, ht]
    exact congrArg _ hpid
  | _ => cases hcalm

/-- **What a move does to the counter**, as long as nobody forks. -/
theorem Moves.tally (hm : Moves grow t l s l' s') (hl : Owns t l s)
    (hknown : ∀ v ∈ s.handles, v.proc = 0 ∧ v.originalPid = 0) (hpid : (s.refs 0).pid = 0)
    (hcalm : l.calm = true) (hsame : s'.nextPid = s.nextPid) : Tally l s l' s' := by
  cases hm with
  | asked ha => exact ha.tally hsame
  | op hgoes =>
    refine .quiet rfl (fun m heq => by cases heq) (fun m heq => by cases heq) ?_ ?_
    · rw [op_refs hgoes]
    · rw [Shared.remaining, (op_handles hgoes).1]
      rfl
  | ret =>
    refine .quiet rfl (fun m heq => by cases heq) (fun m heq => by cases heq) rfl ?_
    exact countP_modifyHandle Handle.remains fun v _ => remains_borrowed (borrowed_giveBack t v)
  | make hmake =>
    obtain ⟨v, users, hv, hproc, -⟩ := hl
    have ht : t.pid = 0 := hproc.symm.trans (hknown v (List.mem_of_getElem? hv)).1
    exact hmake.tally ht hpid hcalm
  | drop hdrop =>
    have hl' := hl
    obtain ⟨v, hv, hproc, -⟩ := hl
    have ht : t.pid = 0 := hproc.symm.trans (hknown v (List.mem_of_getElem? hv)).1
    exact hdrop.tally hl' ht hpid (fun v hv => (hknown v hv).2) hcalm

/-- A move before the teardown gives nothing back. -/
theorem Moves.intact (hm : Moves grow t l s l' s') (hcalm : l.calm = true) (h : Intact s) :
    Intact s' := by
  have hfrees : s'.queueFrees = s.queueFrees ∧ s'.innerFrees = s.innerFrees := by
    rcases hm.frees with hsame | ⟨d, rfl | rfl⟩
    · exact hsame
    · cases hcalm
    · cases hcalm
  refine ⟨?_, hm.creatorPid.trans h.creatorPid, hfrees.1.trans h.queueFrees,
    hfrees.2.trans h.innerFrees⟩
  rcases hm.dropping with ⟨d, rfl, -⟩ | hsame
  · cases hcalm
  · exact hsame.trans h.dropping

/-! ## Who is making a value -/

/-- About to make a value. -/
def AboutToMake (_ : Tid) (l : Pc α) : Prop := ∃ m, l = .make m .create

theorem maker_iff : Maker c u ↔ At AboutToMake c u := by
  constructor
  · rintro ⟨m, ht⟩
    exact ⟨_, ht, m, rfl⟩
  · rintro ⟨l, ht, m, rfl⟩
    exact ⟨m, ht⟩

variable {us : List Tid}

theorem makers_iff : Makers c us ↔ Census AboutToMake c us := by
  constructor
  · exact fun h => ⟨h.nodup, fun u => (h.mem u).trans maker_iff⟩
  · exact fun h => ⟨h.nodup, fun u => (h.mem u).trans maker_iff.symm⟩

namespace Makers

theorem same (h : Makers c us) (hstep : Step (program grow) c i c')
    (hmover : Maker c' i.mover ↔ Maker c i.mover) : Makers c' us := by
  rw [maker_iff, maker_iff] at hmover
  exact makers_iff.mpr ((makers_iff.mp h).same hstep hmover)

theorem cons (h : Makers c us) (hstep : Step (program grow) c i c')
    (hbefore : ¬ Maker c i.mover) (hafter : Maker c' i.mover) : Makers c' (i.mover :: us) := by
  rw [maker_iff] at hbefore hafter
  exact makers_iff.mpr ((makers_iff.mp h).enter hstep hbefore hafter)

theorem erase (h : Makers c us) (hstep : Step (program grow) c i c')
    (hafter : ¬ Maker c' i.mover) : Makers c' (us.erase i.mover) := by
  rw [maker_iff] at hafter
  exact makers_iff.mpr ((makers_iff.mp h).leave hstep hafter)

end Makers

/-! ## Before the teardown -/

/-- Threads stay calm while the one that moves does. -/
theorem Counting.calm_after (h : Counting c) (hstep : Step (program grow) c i c')
    (hmover : ∀ l', c'.threads i.mover = .running l' → l'.calm = true)
    (hu : c'.threads u = .running l) : l.calm = true := by
  by_cases heq : u = i.mover
  · exact hmover l (heq ▸ hu)
  · exact h.calm ((hstep.others heq).symm.trans hu)

/-- A step that leaves the counter alone, and what it counts. -/
theorem Counting.of_quiet (h : Counting c) (hstep : Step (program grow) c i c')
    (hcalm : ∀ l', c'.threads i.mover = .running l' → l'.calm = true)
    (hmover : Maker c' i.mover ↔ Maker c i.mover)
    (hrefs : c'.shared.refs 0 = c.shared.refs 0)
    (hremaining : c'.shared.remaining = c.shared.remaining) (hintact : Intact c'.shared) :
    Counting c' := by
  obtain ⟨us, hus, hcounts⟩ := h.counts
  refine ⟨fun hu => h.calm_after hstep hcalm hu, ⟨us, hus.same hstep hmover, ?_⟩, ?_, hintact⟩
  · rw [hrefs, hremaining]
    exact hcounts
  · rw [hremaining]
    exact h.remains

/-- A drop that finds the last reference is the only one at work, on the last value. -/
theorem last_of_remaining (h : Owned c) (ht : c.threads t = .running (.drop d pc))
    (hremaining : c.shared.remaining = 1) :
    OthersIdle t c ∧ ∀ k v, k ≠ d.handle → c.shared.handles[k]? = some v → v.phase = .gone := by
  obtain ⟨v, hv, -, -, hcloses⟩ := h.holds.running ht
  have hgone : ∀ k w, k ≠ d.handle → c.shared.handles[k]? = some w → w.phase = .gone :=
    fun k w hk hw => gone_of_remaining hremaining hv hcloses.not_gone hk hw
  refine ⟨fun u hu => idle_of_rest_gone h hv hgone (fun users hlive _ => ?_) ?_, hgone⟩
  · exact hcloses.ne_live users hlive
  · intro d' pc' hu' heq
    exact h.distinct hu ht hu' ⟨d, pc, d', pc', rfl, rfl, heq.symm⟩

/-- The counter after an addition that does not wrap. -/
theorem Counting.increase (h : Counting c) (haddressed : Addressed c)
    (hstep : Step (program grow) c i c') {m : Making}
    (hbefore : c.threads i.mover = .running (.make m .addCounter))
    (hafter : c'.threads i.mover = .running (.make m .create))
    (hrefs : c'.shared.refs 0 = ⟨Usize.wrappingAdd (c.shared.refs 0).counter 1, 0⟩)
    (hremaining : c'.shared.remaining = c.shared.remaining) (hintact : Intact c'.shared) :
    Counting c' := by
  obtain ⟨us, hus, hcounts⟩ := h.counts
  have hmaker : ¬ Maker c i.mover := by
    rintro ⟨m', hm'⟩
    cases hbefore.symm.trans hm'
  have hus' : Makers c' (i.mover :: us) := hus.cons hstep hmaker ⟨m, hafter⟩
  have hlt : us.length + c.shared.remaining + 1 < usizeLimit := by
    have hroom := haddressed.lt hus'.nodup fun u hu => ?_
    · rwa [List.length_cons, Nat.add_right_comm] at hroom
    · rcases List.mem_cons.mp hu with rfl | hmem
      · exact ⟨m, _, hbefore⟩
      · obtain ⟨m', hm'⟩ := (hus.mem u).mp hmem
        exact ⟨m', _, hm'⟩
  refine ⟨fun {u l} hu => ?_, ⟨_, hus', ?_⟩, ?_, hintact⟩
  · refine h.calm_after hstep (fun l' hl' => ?_) hu
    cases hafter.symm.trans hl'
    rfl
  · rw [hrefs, hcounts, hremaining, List.length_cons, Nat.add_right_comm]
    exact congrArg (PerProcessReferences.mk · 0) (Nat.mod_eq_of_lt hlt)
  · rw [hremaining]
    exact h.remains

/-- The value is made. -/
theorem Counting.create (h : Counting c) (hstep : Step (program grow) c i c')
    (hbefore : Maker c i.mover) (hafter : c'.threads i.mover = .running .idle)
    (hrefs : c'.shared.refs 0 = c.shared.refs 0)
    (hremaining : c'.shared.remaining = c.shared.remaining + 1) (hintact : Intact c'.shared) :
    Counting c' := by
  obtain ⟨us, hus, hcounts⟩ := h.counts
  have hnot : ¬ Maker c' i.mover := by
    rintro ⟨m, hm⟩
    cases hafter.symm.trans hm
  refine ⟨fun {u l} hu => ?_, ⟨_, hus.erase hstep hnot, ?_⟩, ?_, hintact⟩
  · refine h.calm_after hstep (fun l' hl' => ?_) hu
    cases hafter.symm.trans hl'
    rfl
  · have hlength := (makers_iff.mp hus).length_erase (maker_iff.mp hbefore)
    rw [hrefs, hcounts, hremaining, ← hlength, Nat.add_right_comm, Nat.add_assoc]
  · rw [hremaining]
    exact Nat.succ_pos _

/-- A decrease that is not the last one: another value remains, if only the one that a new value is
made from. -/
theorem Counting.moveAlong (h : Counting c) (howned : Owned c) (haddressed : Addressed c)
    (hstep : Step (program grow) c i c')
    (hbefore : c.threads i.mover = .running (.drop d .subCounter))
    (hafter : c'.threads i.mover = .running .idle) (hmore : (c.shared.refs 0).counter ≠ 1)
    (hrefs : c'.shared.refs 0 = ⟨Usize.wrappingSub (c.shared.refs 0).counter 1, 0⟩)
    (hhandles : c'.shared.handles = (c.shared.setPhase d.handle .gone).handles)
    (hintact : Intact c'.shared) : Counting c' := by
  obtain ⟨us, hus, hcounts⟩ := h.counts
  obtain ⟨v, hv, -, -, hcloses⟩ := howned.holds.running hbefore
  have hremaining : c'.shared.remaining + 1 = c.shared.remaining := by
    rw [Shared.remaining, hhandles]
    exact remaining_gone hv hcloses.not_gone
  have hmaker : ¬ Maker c i.mover := by
    rintro ⟨m, hm⟩
    cases hbefore.symm.trans hm
  have hmaker' : ¬ Maker c' i.mover := by
    rintro ⟨m, hm⟩
    cases hafter.symm.trans hm
  refine ⟨fun {u l} hu => ?_, ⟨us, hus.same hstep (iff_of_false hmaker' hmaker), ?_⟩, ?_, hintact⟩
  · refine h.calm_after hstep (fun l' hl' => ?_) hu
    cases hafter.symm.trans hl'
    rfl
  · have hlt : us.length + c.shared.remaining < usizeLimit := by
      refine haddressed.lt hus.nodup fun u hu => ?_
      obtain ⟨m, hm⟩ := (hus.mem u).mp hu
      exact ⟨m, _, hm⟩
    rw [hrefs, hcounts]
    refine congrArg (PerProcessReferences.mk · 0) ?_
    show (us.length + c.shared.remaining + usizeLimit - 1) % usizeLimit = _
    rw [show us.length + c.shared.remaining + usizeLimit - 1 =
      us.length + c'.shared.remaining + usizeLimit by omega, Nat.add_mod_right]
    exact Nat.mod_eq_of_lt (by omega)
  · cases us with
    | nil =>
      rw [hcounts, List.length_nil, Nat.zero_add] at hmore
      dsimp only at hmore
      have hpos := h.remains
      omega
    | cons u us =>
      -- the value that `u` makes another one from stays alive
      obtain ⟨m, hm⟩ := (hus.mem u).mp List.mem_cons_self
      obtain ⟨w, users, hw, -, -, hlive, -⟩ := howned.holds.running hm
      have hne : d.handle ≠ m.source := by
        intro heq
        rw [heq] at hv
        cases hv.symm.trans hw
        exact hcloses.ne_live users hlive
      have hw' : c'.shared.handles[m.source]? = some w := by
        rw [hhandles, Shared.setPhase, Shared.getElem?_modifyHandle_of_ne _ hne]
        exact hw
      exact remaining_pos hw' (by simp [hlive])

/-- A decrease that is the last one begins the teardown. -/
theorem Counting.last (h : Counting c) (howned : Owned c) (hstep : Step (program grow) c i c')
    (hbefore : c.threads i.mover = .running (.drop d .subCounter))
    (hafter : c'.threads i.mover = .running (.drop d .storeDropping))
    (hone : (c.shared.refs 0).counter = 1) (hhandles : c'.shared.handles = c.shared.handles)
    (hintact : Intact c'.shared) : Last i.mover d .storeDropping c' := by
  obtain ⟨us, hus, hcounts⟩ := h.counts
  have hremaining : c.shared.remaining = 1 := by
    have hpos := h.remains
    rw [hcounts] at hone
    dsimp only at hone
    omega
  obtain ⟨hidle, hgone⟩ := last_of_remaining howned hbefore hremaining
  refine ⟨hafter, fun u hu => (hstep.others hu).trans (hidle u hu), ?_, fun _ => hintact.dropping,
    c'.shared, hintact, rfl, rfl, rfl, rfl⟩
  rw [hhandles]
  exact hgone

/-- Only a request adds a process. -/
theorem Moves.nextPid_eq (hm : Moves grow t l s l' s') (hidle : l ≠ .idle) :
    s'.nextPid = s.nextPid := by
  cases hm with
  | asked => exact absurd rfl hidle
  | op hgoes => exact (op_handles hgoes).2
  | ret => rfl
  | make hmake => cases hmake <;> rfl
  | drop hdrop => cases hdrop <;> rfl

/-- Without a fork no process is added. -/
theorem nextPid_of_step (hstep : Step (program grow) c i c') (hfork : Label.forks i = false) :
    c'.shared.nextPid = c.shared.nextPid := by
  rcases hstep.moves with ⟨l, l', hl, -, hgoes⟩ | ⟨hs, -⟩
  · by_cases hidle : l = .idle
    · subst hidle
      obtain ⟨input, l', heq, hclient, -⟩ := hstep.of_ask hl rfl
      rw [heq] at hfork
      generalize c'.shared = s' at hclient ⊢
      cases client_cases hclient with
      | fork => cases hfork
      | _ => rfl
    · exact (moves_of_goes hgoes).nextPid_eq hidle
  · rw [hs]

/-- In one process every value is of that process. -/
theorem Owned.single (h : Owned c) (hsingle : c.shared.nextPid = 1) {v : Handle}
    (hv : v ∈ c.shared.handles) : v.proc = 0 ∧ v.originalPid = 0 := by
  obtain ⟨hproc, -, horiginal⟩ := h.holds.global v hv
  rw [hsingle] at hproc horiginal
  exact ⟨Nat.lt_one_iff.mp hproc, Nat.lt_one_iff.mp horiginal⟩

/-- **One step before the teardown**: the counter stays right, or the teardown begins. -/
theorem Counting.step (h : Counting c) (howned : Owned c) (hsingle : c.shared.nextPid = 1)
    (haddressed : Addressed c) (hfork : Label.forks i = false)
    (hstep : Step (program grow) c i c') :
    Counting c' ∨ ∃ d, Last i.mover d .storeDropping c' := by
  rcases hstep.moves with ⟨l, l', hl, hl', hgoes⟩ | ⟨hs, hwait⟩
  swap
  · -- the thread is inside an operation, before the step and after it
    left
    refine h.of_quiet hstep (fun l' hl' => ?_) (iff_of_false ?_ ?_) (by rw [hs]) (by rw [hs])
      (by rw [hs]; exact h.intact)
    · obtain ⟨k, op, pc, rfl⟩ := op_of_still howned.holds hstep hwait hl'
      rfl
    · rintro ⟨m, hm⟩
      obtain ⟨k, op, pc, heq⟩ := op_of_still howned.holds hstep hwait hm
      cases heq
    · rintro ⟨m, hm⟩
      obtain ⟨cv, next, late, heq⟩ := hwait _ hm
      cases heq
  have hm := moves_of_goes hgoes
  have hintact := hm.intact (h.calm hl) h.intact
  have hpid : (c.shared.refs 0).pid = 0 := by
    obtain ⟨us, -, hcounts⟩ := h.counts
    rw [hcounts]
  cases hm.tally (howned.holds.running hl) (fun v hv => howned.single hsingle hv) hpid (h.calm hl)
    (nextPid_of_step hstep hfork) with
  | quiet hcalm hbefore hafter hrefs hremaining =>
    left
    refine h.of_quiet hstep (fun l₁ hl₁ => ?_) (iff_of_false ?_ ?_) hrefs hremaining hintact
    · cases hl'.symm.trans hl₁
      exact hcalm
    · rintro ⟨m, hmaker⟩
      exact hafter m (Thread.running.inj (hl'.symm.trans hmaker))
    · rintro ⟨m, hmaker⟩
      exact hbefore m (Thread.running.inj (hl.symm.trans hmaker))
  | increase hbefore hafter hrefs hremaining =>
    rw [hbefore] at hl
    rw [hafter] at hl'
    exact Or.inl (h.increase haddressed hstep hl hl' hrefs hremaining hintact)
  | @create m hbefore hafter hrefs hremaining =>
    rw [hbefore] at hl
    rw [hafter] at hl'
    exact Or.inl (h.create hstep ⟨m, hl⟩ hl' hrefs hremaining hintact)
  | moveAlong hbefore hafter hmore hrefs hhandles =>
    rw [hbefore] at hl
    rw [hafter] at hl'
    exact Or.inl (h.moveAlong howned haddressed hstep hl hl' hmore hrefs hhandles hintact)
  | last hbefore hafter hone hhandles =>
    rw [hbefore] at hl
    rw [hafter] at hl'
    exact Or.inr ⟨_, h.last howned hstep hl hl' hone hhandles hintact⟩

/-! ## The teardown and after -/

/-- While no handle can be used, a thread at rest has nothing to do but to fork. -/
theorem Dead.forks (h : Dead c.shared) (ht : c.threads i.mover = .running .idle)
    (hstep : Step (program grow) c i c') : Label.forks i = true := by
  obtain ⟨input, l', heq, hclient, -⟩ := hstep.of_ask ht rfl
  cases h.asked (client_cases hclient)
  rw [heq]
  rfl

theorem Last.dead (h : Last t d pc c) (howned : Owned c) : Dead c.shared := by
  intro w hw
  obtain ⟨j, hj⟩ := List.mem_iff_getElem?.mp hw
  by_cases hjd : j = d.handle
  · subst hjd
    obtain ⟨v, hv, -, -, hcloses⟩ := howned.holds.running h.running
    cases hv.symm.trans hj
    exact hcloses.not_live
  · exact Handle.not_live_of_gone (h.gone j w hjd hj)

/-- The store to `dropping` comes right after a decrease. -/
theorem DropMoves.before_store (hm : DropMoves t d pc s (.drop d .storeDropping) s') :
    pc = .swapPid ∨ pc = .subCounter := by
  cases hm with
  | otherPid => exact Or.inl rfl
  | last => exact Or.inr rfl
  | swapSenders hpc => rcases hpc with hpc | hpc | hpc <;> cases hpc
  | broadcastItem hpc => rcases hpc with hpc | hpc <;> cases hpc
  | lock hpc => rcases hpc with hpc | hpc <;> cases hpc
  | destroyMutex hpc => rcases hpc with hpc | hpc <;> cases hpc
  | @destroyCondvar side _ _ hpc => cases side <;> cases hpc

/-- Only the thread that tears the channel down moves. -/
theorem Last.mover (h : Last t d pc c) (howned : Owned c) (hfork : Label.forks i = false)
    (hstep : Step (program grow) c i c') : i.mover = t := by
  by_contra hne
  rw [(h.dead howned).forks (h.others _ hne) hstep] at hfork
  cases hfork

/-- **One step of the teardown.** -/
theorem Last.step (h : Last t d pc c) (howned : Owned c) (hsingle : c.shared.nextPid = 1)
    (hfork : Label.forks i = false) (hstep : Step (program grow) c i c') :
    (∃ pc', Last t d pc' c') ∨ Over c' := by
  have hmover := h.mover howned hfork hstep
  subst hmover
  obtain ⟨s₀, hintact, hreleases⟩ := h.releases
  have hothers : OthersIdle i.mover c' := fun u hu => (hstep.others hu).trans (h.others u hu)
  rcases hstep.goes h.running with ⟨l', hl', hgoes⟩ | ⟨cv, next, late, hwait, -⟩
  swap
  · exact absurd hwait drop_ne_wait
  have hm := dropMoves_of_goes hgoes
  have hgone : ∀ k v, k ≠ d.handle → c'.shared.handles[k]? = some v → v.phase = .gone := by
    intro k v hk hv
    rw [hm.handle_of_ne (Ne.symm hk)] at hv
    exact h.gone k v hk hv
  rcases hreleases.step howned.sound h.others hstep rfl h.running with
    ⟨pc', ht', hnext⟩ | ⟨ht', hdone⟩
  · refine Or.inl ⟨pc', ht', hothers, hgone, ?_, s₀, hintact, hnext⟩
    -- nothing leads back to the store
    rintro rfl
    cases hl'.symm.trans ht'
    rcases hm.before_store with rfl | rfl
    · exact hreleases.elim
    · exact hreleases.elim
  · right
    cases hl'.symm.trans ht'
    obtain ⟨v, hv, hproc, -⟩ := howned.holds.running h.running
    have hpid : i.mover.pid = 0 :=
      hproc.symm.trans (howned.single hsingle (List.mem_of_getElem? hv)).1
    have hend : c'.shared.handles = (c.shared.setPhase d.handle .gone).handles ∧
        c'.shared.inner.dropping = true := by
      have htear := howned.sound.teardown.running h.running
      generalize c'.shared = s' at hm ⊢
      cases hm with
      | foreign => exact hreleases.elim
      | moveAlong => exact hreleases.elim
      | freeReferences => exact ⟨rfl, htear d _ rfl rfl⟩
    refine ⟨fun u => ?_, fun w hw => ?_, hend.2, ?_⟩
    · by_cases hu : u = i.mover
      · rw [hu]
        exact ht'
      · exact hothers u hu
    · obtain ⟨j, hj⟩ := List.mem_iff_getElem?.mp hw
      by_cases hjd : j = d.handle
      · subst hjd
        rw [hend.1, Shared.setPhase, Shared.getElem?_modifyHandle_self _ hv] at hj
        cases hj
        rfl
      · exact hgone j w hjd hj
    · exact (released_iff hdone fun _ => hintact.queueFrees).mpr
        ⟨hintact.creatorPid.trans hpid.symm, hintact.innerFrees⟩

/-- After the teardown nothing happens any more. -/
theorem Over.forks (h : Over c) (hstep : Step (program grow) c i c') : Label.forks i = true := by
  have hdead : Dead c.shared := fun v hv => Handle.not_live_of_gone (h.gone v hv)
  exact hdead.forks (h.idle _) hstep

/-! ## The whole life -/

theorem Life.step (h : Life c) (haddressed : Addressed c) (hfork : Label.forks i = false)
    (hstep : Step (program grow) c i c') : Life c' := by
  refine ⟨h.owned.step hstep, (nextPid_of_step hstep hfork).trans h.single, ?_⟩
  rcases h.stage with hcounting | ⟨t, d, pc, hlast⟩ | hover
  · rcases hcounting.step h.owned h.single haddressed hfork hstep with hnext | ⟨d, hnext⟩
    · exact Or.inl hnext
    · exact Or.inr (Or.inl ⟨_, d, _, hnext⟩)
  · rcases hlast.step h.owned h.single hfork hstep with ⟨pc', hnext⟩ | hnext
    · exact Or.inr (Or.inl ⟨t, d, pc', hnext⟩)
    · exact Or.inr (Or.inr hnext)
  · rw [hover.forks hstep] at hfork
    cases hfork

theorem life_initial (capacity : ℕ) : Life (initial (α := α) capacity) where
  owned := owned_initial capacity
  single := rfl
  stage := by
    refine Or.inl ⟨fun {u l} hu => ?_, ⟨[], ⟨List.nodup_nil, fun u => ?_⟩, rfl⟩, Nat.one_pos,
      rfl, rfl, rfl, rfl⟩
    · cases hu
      rfl
    · refine iff_of_false List.not_mem_nil ?_
      rintro ⟨m, hm⟩
      cases hm

/-! ## Runs -/

/-- Thread `t` is tearing the channel down, in the drop `d`. -/
def TearsDown (c : State α) (t : Tid) (d : Dropping) : Prop :=
  ∃ pc, c.threads t = .running (.drop d pc) ∧ pc.decreased = true

/-- The decrease for the handle has been done. -/
def Decreased (c : State α) (k : ℕ) : Prop :=
  (∃ v, c.shared.handles[k]? = some v ∧ v.phase = .gone) ∨
    ∃ t d, TearsDown c t d ∧ d.handle = k

/-- Thread `u` is at work for the handle, or asleep while it is. -/
def Serves (c : State α) (u : Tid) (k : ℕ) : Prop :=
  ∃ l, l.handle? = some k ∧ (c.threads u = .running l ∨
    (∃ cv late, c.threads u = .blocked cv l late) ∨ c.threads u = .woken l)

/-- The step begins a teardown: it is the store to `dropping`. -/
def begins (x : State α × Event α) : Bool :=
  match x.1.threads x.2.mover with
  | .running (.drop _ .storeDropping) => true
  | _ => false

/-- What there is to say about the teardown of a channel that was used in one process. -/
structure OneTeardown (grow : ℕ → Option ℕ) (capacity : ℕ) (tr : Trace α) (c : State α) :
    Prop where
  -- it runs in the drop of the last value, while all other threads are idle
  last : Everywhere (fun c => ∀ t d, TearsDown c t d → OthersIdle t c ∧
    ∀ k v, k ≠ d.handle → c.shared.handles[k]? = some v → v.phase = .gone) tr c
  -- nobody else is at work for a handle whose decrease has been done
  untouched : Everywhere (fun c => ∀ u k, Decreased c k → Serves c u k →
    ∃ d, TearsDown c u d ∧ d.handle = k) tr c
  once : tr.countP begins ≤ 1
  -- it has run to its end when all values are gone
  complete : (∀ v ∈ c.shared.handles, v.phase = .gone) → tr.countP begins = 1 ∧ Released c.shared
  -- at its end everything has been given back
  released : tr.countP begins = 1 → (∀ t d, ¬ TearsDown c t d) → Released c.shared
  -- and it always comes to its end
  finishes : ∀ t d, TearsDown c t d → ∃ tr' c',
    Run (Step (program grow)) (initial capacity) tr' c' ∧
      Throughout (fun _ i => Label.forks i = false) tr' ∧ tr <:+ tr' ∧
      c'.threads t = .running .idle ∧ Released c'.shared

theorem begins_iff :
    begins (c, i) = true ↔ ∃ d, c.threads i.mover = .running (.drop d .storeDropping) := by
  unfold begins
  split
  · next d heq => exact iff_of_true rfl ⟨d, heq⟩
  · next hnot => exact iff_of_false Bool.false_ne_true fun ⟨d, heq⟩ => hnot d heq

/-- `dropping` is set by the step that begins a teardown, and by no other. -/
theorem dropping_of_step (hstep : Step (program grow) c i c') :
    if begins (c, i) then c'.shared.inner.dropping = true
    else c'.shared.inner.dropping = c.shared.inner.dropping := by
  rcases hstep.moves with ⟨l, l', hl, hl', hgoes⟩ | ⟨hs, hwait⟩
  · by_cases hbegins : begins (c, i) = true
    · rw [if_pos hbegins]
      obtain ⟨d, hd⟩ := begins_iff.mp hbegins
      cases hl.symm.trans hd
      generalize c'.shared = s' at hgoes ⊢
      cases hgoes
      rfl
    · rw [if_neg hbegins]
      rcases (moves_of_goes hgoes).dropping with ⟨d, rfl, -⟩ | hsame
      · exact absurd (begins_iff.mpr ⟨d, hl⟩) hbegins
      · exact hsame
  · have hnot : ¬ begins (c, i) = true := by
      rw [begins_iff]
      rintro ⟨d, hd⟩
      obtain ⟨cv, next, late, heq⟩ := hwait _ hd
      cases heq
    rw [if_neg hnot, hs]

theorem Life.last (h : Life c) (htears : TearsDown c t d) : ∃ pc, Last t d pc c := by
  obtain ⟨pc, ht, hdecreased⟩ := htears
  rcases h.stage with hcounting | ⟨u, d', pc', hlast⟩ | hover
  · have hcalm := hcounting.calm ht
    simp [Pc.calm, hdecreased] at hcalm
  · by_cases hu : t = u
    · subst hu
      cases ht.symm.trans hlast.running
      exact ⟨pc, hlast⟩
    · cases ht.symm.trans (hlast.others t hu)
  · cases ht.symm.trans (hover.idle t)

/-- A teardown begins once. -/
theorem countP_begins (hrun : Run (Step (program grow)) (initial capacity) tr c)
    (hlife : Everywhere Life tr c) :
    tr.countP begins = if c.shared.inner.dropping then 1 else 0 := by
  induction hrun with
  | start => rfl
  | @next tr c c' i _ hstep ih =>
    obtain ⟨-, hbefore⟩ := everywhere_cons.mp hlife
    have hdropping := dropping_of_step hstep
    rw [List.countP_cons, ih hbefore]
    by_cases hbegins : begins (c, i) = true
    · obtain ⟨d, hd⟩ := begins_iff.mp hbegins
      obtain ⟨pc, hlast⟩ := hbefore.1.last ⟨_, hd, rfl⟩
      cases hd.symm.trans hlast.running
      rw [if_pos hbegins] at hdropping ⊢
      simp [hdropping, hlast.dropping rfl]
    · rw [if_neg hbegins] at hdropping ⊢
      rw [hdropping, Nat.add_zero]

/-- A thread that serves a handle owns it. -/
theorem Serves.owns (h : Serves c u k) (howned : Owned c) :
    ∃ l, l.handle? = some k ∧ Owns u l c.shared ∧
      (c.threads u = .running l ∨ ∃ j op pc, l = .op j op pc) := by
  obtain ⟨l, hk, hl | ⟨cv, late, hb⟩ | hw⟩ := h
  · exact ⟨l, hk, howned.holds.running hl, Or.inl hl⟩
  · have hat := howned.holds.at_ u
    rw [hb] at hat
    exact ⟨l, hk, hat.1.2, Or.inr hat.1.1⟩
  · have hat := howned.holds.at_ u
    rw [hw] at hat
    exact ⟨l, hk, hat.2, Or.inr hat.1⟩

/-- **Nobody but the teardown is at work for a handle whose decrease has been done.** -/
theorem Decreased.untouched (h : Decreased c k) (howned : Owned c) (hserves : Serves c u k) :
    ∃ d, TearsDown c u d ∧ d.handle = k := by
  -- the handle is not alive any more
  have hdead : ∀ v, c.shared.handles[k]? = some v → v.isLive = false := by
    intro v hv
    rcases h with ⟨w, hw, hphase⟩ | ⟨t, d, ⟨pc, ht, -⟩, rfl⟩
    · cases hw.symm.trans hv
      exact Handle.not_live_of_gone hphase
    · obtain ⟨w, hw, -, -, hcloses⟩ := howned.holds.running ht
      cases hw.symm.trans hv
      exact hcloses.not_live
  obtain ⟨l, hk, howns, hl⟩ := hserves.owns howned
  cases l with
  | idle => cases hk
  | op j op pc =>
    cases hk
    obtain ⟨v, users, hv, -, -, hlive, -⟩ := howns
    cases (hdead v hv).symm.trans (Handle.isLive_of_phase hlive)
  | make m pc =>
    cases hk
    obtain ⟨v, users, hv, -, -, hlive, -⟩ := howns
    cases (hdead v hv).symm.trans (Handle.isLive_of_phase hlive)
  | drop d pc =>
    cases hk
    obtain ⟨v, hv, -, -, hcloses⟩ := howns
    rcases hl with hl | ⟨j, op, opc, heq⟩
    · rcases h with ⟨w, hw, hphase⟩ | ⟨t, d', htears, hd'⟩
      · cases hw.symm.trans hv
        exact absurd hphase hcloses.not_gone
      · by_cases hu : u = t
        · rw [hu]
          exact ⟨d', htears, hd'⟩
        · obtain ⟨pc', ht, -⟩ := htears
          exact absurd ⟨d', pc', d, pc, rfl, rfl, hd'⟩ (howned.distinct hu ht hl)
    · cases heq

/-- A teardown comes to its end. -/
theorem Last.finishes (hrun : Run (Step (program grow)) (initial capacity) tr c)
    (hok : Throughout (fun _ i => Label.forks i = false) tr) (h : Last t d pc c)
    (howned : Owned c) (hsingle : c.shared.nextPid = 1) :
    ∃ tr' c', Run (Step (program grow)) (initial capacity) tr' c' ∧
      Throughout (fun _ i => Label.forks i = false) tr' ∧ tr <:+ tr' ∧ Over c' := by
  have hcontinue : ∀ {c : State α}, (Owned c ∧ c.shared.nextPid = 1 ∧
      ((∃ pc, Last t d pc c) ∨ Over c)) → ¬ Over c →
        ∃ i c', Label.forks i = false ∧ Step (program grow) c i c' ∧
          (Owned c' ∧ c'.shared.nextPid = 1 ∧ ((∃ pc, Last t d pc c') ∨ Over c')) ∧
            dropRank t c' < dropRank t c := by
    rintro c ⟨howned, hsingle, ⟨pc, hlast⟩ | hover⟩ hnot
    · obtain ⟨s₀, -, hreleases⟩ := hlast.releases
      have hpc := hreleases.rank_lt
      obtain ⟨c', hstep⟩ :=
        hlast.others.exists_step_of_drop grow howned.sound.exclusive hlast.running hpc
      exact ⟨_, c', rfl, hstep, ⟨howned.step hstep, (nextPid_of_step hstep rfl).trans hsingle,
        hlast.step howned hsingle rfl hstep⟩, dropRank_lt hstep rfl hlast.running hpc⟩
    · exact absurd hover hnot
  obtain ⟨tr', c', hrun', hok', hsuffix, -, hover⟩ :=
    hrun.reaches (dropRank t) hcontinue hok ⟨howned, hsingle, Or.inl ⟨pc, h⟩⟩
  exact ⟨tr', c', hrun', hok', hsuffix, hover⟩

/-- **The teardown in one process.** -/
theorem oneTeardown_of_run (hrun : Run (Step (program grow)) (initial capacity) tr c)
    (hok : Throughout (fun c i => Addressed c ∧ Label.forks i = false) tr) :
    OneTeardown grow capacity tr c := by
  have hlife : Everywhere Life tr c :=
    hrun.everywhere (life_initial capacity) (fun h hi hstep => h.step hi.1 hi.2 hstep) hok
  have hforks : Throughout (fun _ i => Label.forks i = false) tr := fun x hx => (hok x hx).2
  have hcount := countP_begins hrun hlife
  have heverywhere : ∀ {P : State α → Prop}, (∀ c, Life c → P c) → Everywhere P tr c :=
    fun hP => ⟨hP _ hlife.1, fun x hx => hP _ (hlife.2 x hx)⟩
  refine ⟨heverywhere fun c hc t d htears => ?_, heverywhere fun c hc u k hdecreased hserves =>
    hdecreased.untouched hc.owned hserves, ?_, fun hgone => ?_, fun hone hends => ?_,
    fun t d htears => ?_⟩
  · obtain ⟨pc, hlast⟩ := hc.last htears
    exact ⟨hlast.others, hlast.gone⟩
  · rw [hcount]
    split
    · exact Nat.le_refl 1
    · exact Nat.zero_le 1
  · rcases hlife.1.stage with hcounting | ⟨t, d, pc, hlast⟩ | hover
    · have hnone : c.shared.remaining = 0 :=
        List.countP_eq_zero.mpr fun v hv => by simp [Handle.remains, hgone v hv]
      exact absurd hnone (Nat.ne_of_gt hcounting.remains)
    · obtain ⟨v, hv, -, -, hcloses⟩ := hlife.1.owned.holds.running hlast.running
      exact absurd (hgone v (List.mem_of_getElem? hv)) hcloses.not_gone
    · exact ⟨by rw [hcount, if_pos hover.dropping], hover.released⟩
  · rcases hlife.1.stage with hcounting | ⟨t, d, pc, hlast⟩ | hover
    · rw [hcount, hcounting.intact.dropping] at hone
      cases hone
    · obtain ⟨s₀, -, hreleases⟩ := hlast.releases
      refine absurd ⟨pc, hlast.running, ?_⟩ (hends t d)
      cases pc <;> first | exact hreleases.elim | rfl
    · exact hover.released
  · obtain ⟨pc, hlast⟩ := hlife.1.last htears
    obtain ⟨tr', c', hrun', hok', hsuffix, hover⟩ :=
      hlast.finishes hrun hforks hlife.1.owned hlife.1.single
    exact ⟨tr', c', hrun', hok', hsuffix, hover.idle t, hover.released⟩

/-- **The life of a channel in the process that creates it.** `Channel::new` leaves the free list
as it was when it fails; otherwise it takes blocks that can be given back whenever they are live.
And in every run of any number of threads there is one teardown, of the last value, which gives
them back. -/
theorem channel_lifecycle {env : Environment} {S : Superslice} {size : ℕ} {st : Arena}
    (harena : Arena.Run env S size st) (lib : Collections)
    (hrun : Run (Step (program grow)) (initial (α := α) capacity) tr c)
    (hok : Throughout (fun c i => Addressed c ∧ Label.forks i = false) tr) :
    ((∃ e a, new lib S st.alloc capacity = .ok (.error e, a) ∧
        Arena.entries a = Arena.entries st.alloc) ∨
      ∃ blocks a live, new lib S st.alloc capacity = .ok (.ok blocks, a) ∧
        Arena.Run env S size ⟨a, live⟩ ∧ blocks.Beside st.live live ∧
        ∀ st' rest, Arena.Run env S size st' → blocks.Beside rest st'.live →
          ∃ a' live', release S st'.alloc blocks = .ok a' ∧ Arena.Run env S size ⟨a', live'⟩ ∧
            live'.Perm rest) ∧
    OneTeardown grow capacity tr c := by
  refine ⟨?_, oneTeardown_of_run hrun hok⟩
  rcases new_total harena lib capacity with herror | ⟨blocks, a, live, hnew, hafter, hblocks⟩
  · exact Or.inl herror
  · exact Or.inr ⟨blocks, a, live, hnew, hafter, hblocks, fun st' rest hst' hbeside =>
      release_total hst' hbeside⟩

/-- With one thread at work there is room for its values, and for its own frame after them. -/
theorem addressed_of_othersIdle (h : OthersIdle t c)
    (hlength : c.shared.handles.length + 1 < usizeLimit) : Addressed c := by
  have hvalue : ∀ {k : ℕ}, Occupies c (.inl k) → k < c.shared.handles.length :=
    fun ⟨_, hv, _⟩ => (List.getElem?_eq_some_iff.mp hv).1
  have hself : ∀ {u : Tid}, Occupies c (.inr u) → u = t := by
    rintro u ⟨m, pc, hm⟩
    by_contra hne
    cases (h u hne).symm.trans hm
  refine ⟨Sum.elim (· + 1) fun _ => c.shared.handles.length + 1, fun x hx => ?_, ?_⟩
  · cases x with
    | inl k => exact ⟨Nat.succ_pos k, Nat.lt_trans (Nat.succ_lt_succ (hvalue hx)) hlength⟩
    | inr u => exact ⟨Nat.succ_pos _, hlength⟩
  · intro x y hx hy heq
    cases x with
    | inl j =>
      cases y with
      | inl k => exact congrArg Sum.inl (Nat.succ.inj heq)
      | inr u => exact absurd (Nat.succ.inj heq) (Nat.ne_of_lt (hvalue hx))
    | inr u =>
      cases y with
      | inl k => exact absurd (Nat.succ.inj heq).symm (Nat.ne_of_lt (hvalue hy))
      | inr w => rw [hself hx, hself hy]

/-- One thread makes a sender and a receiver, and drops everything. -/
theorem channel_lifecycle_example : ∃ tr, ∃ c : State ℕ,
    Run (Step (program fun _ => none)) (initial 1) tr c ∧ tr.countP begins = 1 ∧
      Released c.shared := by
  obtain ⟨tr, c, hrun, htest, hgone⟩ := exists_run_of_exec (program fun _ => none)
    (fun c i => i.mover = ⟨0, 0⟩ ∧ Label.forks i = false ∧ c.shared.handles.length < 4)
    (initial (α := ℕ) 1)
    (making ⟨0, 0⟩ 0 .sender ++ making ⟨0, 0⟩ 0 .receiver ++ dropping ⟨0, 0⟩ 1 4 ++
      dropping ⟨0, 0⟩ 2 4 ++ .ask ⟨0, 0⟩ (.drop 0) :: runs ⟨0, 0⟩ 15)
    (fun c => ∀ v ∈ c.shared.handles, v.phase = .gone) (by decide)
  have hothers : Everywhere (OthersIdle ⟨0, 0⟩) tr c :=
    hrun.everywhere (fun _ _ => rfl)
      (fun h hi hstep u hu => (hstep.others fun heq => hu (heq.trans hi)).trans (h u hu))
      fun x hx => (of_decide_eq_true (htest x hx)).1
  have hok : Throughout (fun c i => Addressed c ∧ Label.forks i = false) tr := by
    intro x hx
    obtain ⟨-, hfork, hlength⟩ := of_decide_eq_true (htest x hx)
    refine ⟨addressed_of_othersIdle (hothers.2 x hx) ?_, hfork⟩
    unfold usizeLimit
    omega
  have harena : Arena.Run Arena.exampleEnvironment .linear 16
      ⟨⟨⟨⟨2, [⟨⟨0⟩, 2⟩]⟩⟩, 4096⟩, []⟩ := .new (by decide)
  let word : Layout := ⟨8, 8, ⟨3, rfl⟩, by decide⟩
  have hlife := channel_lifecycle harena ⟨fun _ => some (some word), word⟩ hrun hok
  exact ⟨tr, c, hrun, hlife.2.complete (of_decide_eq_true hgone)⟩

end ShmemUtils.Channel
