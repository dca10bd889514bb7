import ShmemUtils.Channel.Lifecycle

/-!
# The counter of a forked process

`fork` copies the counter of the parent, whose pid the copy still carries. The first `increase` in
the child finds another pid and sets the counter to 1, and each later one adds 1, so that the
counter is then the number of values that the child has made; their drops leave it alone, since
they carry the `original_pid` of the channel's creator. `Channel::destroy` is the only call in the
child that decreases it.
-/

namespace ShmemUtils.Channel

open ShmemUtils.Library ShmemUtils.Library.Monitor

variable {α : Type} {grow : ℕ → Option ℕ} {t u : Tid} {l l' : Pc α} {s s' : Shared α}
  {p q k : ℕ} {capacity : ℕ} {c c' : State α} {i : Event α} {tr : Trace α} {d : Dropping}
  {pc : DropPc} {v : Handle}

namespace Handle

/-- A value that the process holds and has made itself. -/
def madeBy (p : ℕ) (v : Handle) : Bool := v.proc = p ∧ v.creator = p

end Handle

namespace Shared

/-- How many values the process has made. -/
def made (p : ℕ) (s : Shared α) : ℕ := s.handles.countP (Handle.madeBy p)

end Shared

/-! ## What a move leaves alone -/

/-- A process changes its own counter, and that of a process it forks. -/
theorem Moves.refs_of_ne (hm : Moves grow t l s l' s') (hq : q ≠ t.pid) (hlt : q < s.nextPid) :
    s'.refs q = s.refs q := by
  have hset : ∀ r, (s.setRefs t.pid r).refs q = s.refs q := fun r => if_neg hq
  cases hm with
  | asked ha =>
    cases ha with
    | fork => exact if_neg (Nat.ne_of_lt hlt)
    | _ => rfl
  | op hgoes => rw [op_refs hgoes]
  | ret => rfl
  | make hmake => cases hmake <;> first | rfl | exact hset _
  | drop hdrop => cases hdrop <;> first | rfl | exact hset _

theorem Moves.nextPid_le (hm : Moves grow t l s l' s') : s.nextPid ≤ s'.nextPid := by
  by_cases hidle : l = .idle
  · subst hidle
    cases hm with
    | asked ha =>
      cases ha with
      | fork => exact Nat.le_succ _
      | _ => exact Nat.le_refl _
  · exact Nat.le_of_eq (hm.nextPid_eq hidle).symm

theorem madeBy_borrowed {v' : Handle} (hb : Borrowed t v v') : v'.madeBy p = v.madeBy p := by
  rcases hb with rfl | ⟨users, -, rfl | rfl⟩ <;> rfl

theorem made_modifyHandle {f : Handle → Handle} {j : ℕ}
    (hf : ∀ v, s.handles[j]? = some v → (f v).madeBy p = v.madeBy p) :
    (s.modifyHandle j f).made p = s.made p :=
  countP_modifyHandle (Handle.madeBy p) hf

theorem made_fork {pid : ℕ} (hp : p < s.nextPid) : (s.fork pid).made p = s.made p := by
  have hnone : ∀ v ∈ (s.handles.filter fun v => v.proc == pid && v.isLive).map
      (fun v => ({ v with proc := s.nextPid, phase := .live [] } : Handle)),
      ¬ v.madeBy p = true := by
    intro v hv
    obtain ⟨w, -, rfl⟩ := List.mem_map.mp hv
    simp [Handle.madeBy, (Nat.ne_of_lt hp).symm]
  unfold Shared.made Shared.fork
  rw [List.countP_append, List.countP_eq_zero.mpr hnone, Nat.add_zero]

theorem made_create {m : Making} :
    (s.create t m).made p = s.made p + if t.pid = p then 1 else 0 := by
  have hback : (s.endBorrow t m.source).made p = s.made p :=
    made_modifyHandle fun v _ => madeBy_borrowed (borrowed_giveBack t v)
  unfold Shared.made Shared.create at *
  rw [List.countP_append, hback, List.countP_singleton]
  simp [Handle.madeBy]

/-- A value is made where a thread comes to the end of its call, and nowhere else. -/
theorem Moves.made (hm : Moves grow t l s l' s') (hp : p < s.nextPid)
    (hcreate : t.pid = p → ∀ m, l ≠ .make m .create) : s'.made p = s.made p := by
  have hborrow : ∀ j, (s.modifyHandle j (Handle.borrow t)).made p = s.made p :=
    fun j => made_modifyHandle fun v _ => madeBy_borrowed (borrowed_borrow t v)
  have hgiveBack : ∀ j, (s.endBorrow t j).made p = s.made p :=
    fun j => made_modifyHandle fun v _ => madeBy_borrowed (borrowed_giveBack t v)
  have hphase : ∀ j phase, (s.setPhase j phase).made p = s.made p :=
    fun j phase => made_modifyHandle fun v _ => rfl
  cases hm with
  | asked ha =>
    cases ha with
    | call => exact hborrow _
    | make => exact hborrow _
    | drop => exact hphase _ _
    | destroy => exact made_modifyHandle fun v _ => rfl
    | fork => exact made_fork hp
  | op hgoes => rw [Shared.made, (op_handles hgoes).1, Shared.made]
  | ret => exact hgiveBack _
  | make hmake =>
    cases hmake with
    | panic => exact hgiveBack _
    | create =>
      rw [made_create, if_neg fun heq => hcreate heq _ rfl]
      rfl
    | _ => rfl
  | drop hdrop =>
    cases hdrop with
    | loadZero => exact hphase _ _
    | reachZero => exact hphase _ _
    | subtract => exact hphase _ _
    | exchangeZero => exact hphase _ _
    | foreign => exact hphase _ _
    | moveAlong => exact hphase _ _
    | freeReferences => exact hphase _ _
    | _ => rfl

/-- Counters are words, and hold pids of processes that there are. -/
def RefsKnown (s : Shared α) : Prop :=
  ∀ q, (s.refs q).counter < usizeLimit ∧ (s.refs q).pid < s.nextPid

theorem RefsKnown.setRefs {r : PerProcessReferences} (h : RefsKnown s)
    (hcounter : r.counter < usizeLimit) (hpid : r.pid < s.nextPid) :
    RefsKnown (s.setRefs p r) := by
  intro q
  show (if q = p then r else s.refs q).counter < usizeLimit ∧
    (if q = p then r else s.refs q).pid < s.nextPid
  split
  · exact ⟨hcounter, hpid⟩
  · exact h q

theorem RefsKnown.moves (h : RefsKnown s) (hm : Moves grow t l s l' s') (hl : Owns t l s)
    (hknown : ∀ v ∈ s.handles, v.Known s.nextPid) : RefsKnown s' := by
  have hword : 0 < usizeLimit := Nat.two_pow_pos 64
  have hwrap : ∀ n, n % usizeLimit < usizeLimit := fun n => Nat.mod_lt n hword
  cases hm with
  | asked ha =>
    cases ha with
    | @fork hpid =>
      intro q
      show (if q = s.nextPid then s.refs t.pid else s.refs q).counter < usizeLimit ∧
        (if q = s.nextPid then s.refs t.pid else s.refs q).pid < s.nextPid + 1
      split
      · exact ⟨(h t.pid).1, Nat.lt_succ_of_lt (h t.pid).2⟩
      · exact ⟨(h q).1, Nat.lt_succ_of_lt (h q).2⟩
    | _ => exact h
  | op hgoes =>
    intro q
    rw [op_refs hgoes, (op_handles hgoes).2]
    exact h q
  | ret => exact h
  | make hmake =>
    obtain ⟨v, users, hv, hproc, -⟩ := hl
    have ht : t.pid < s.nextPid := hproc ▸ (hknown v (List.mem_of_getElem? hv)).1
    cases hmake with
    | loadCounter => exact h
    | create => exact h
    | addCounter => exact h.setRefs (hwrap _) (h t.pid).2
    | resetCounter => exact h.setRefs (hwrap _) (h t.pid).2
    | _ => exact h.setRefs (h t.pid).1 ht
  | drop hdrop =>
    obtain ⟨v, hv, hproc, -⟩ := hl
    have ht : t.pid < s.nextPid := hproc ▸ (hknown v (List.mem_of_getElem? hv)).1
    cases hdrop with
    | samePid => exact h.setRefs (h t.pid).1 ht
    | otherPid => exact h.setRefs (h t.pid).1 ht
    | last => exact h.setRefs (hwrap _) (h t.pid).2
    | moveAlong => exact h.setRefs (hwrap _) (h t.pid).2
    | _ => exact h

theorem refsKnown_of_run (hrun : Run (Step (program grow)) (initial capacity) tr c) :
    Owned c ∧ RefsKnown c.shared := by
  refine hrun.invariant' (I := fun c => Owned c ∧ RefsKnown c.shared)
    ⟨owned_initial capacity, fun q => ⟨Nat.one_lt_two_pow (by decide), Nat.one_pos⟩⟩ ?_
  rintro c i c' ⟨howned, hrefs⟩ hstep
  refine ⟨howned.step hstep, ?_⟩
  rcases hstep.moves with ⟨l, l', hl, -, hgoes⟩ | ⟨hs, -⟩
  · exact hrefs.moves (moves_of_goes hgoes) (howned.holds.running hl) howned.holds.global
  · rw [hs]
    exact hrefs

/-! ## What a thread of the child does -/

/-- The values that a process holds carry the `original_pid` of another one. -/
def Foreign (p : ℕ) (s : Shared α) : Prop :=
  ∀ v ∈ s.handles, v.proc = p → v.originalPid ≠ p

namespace Pc

/-- Inside `increase` after the swap of the pid, or about to make the value. -/
def counting : Pc α → Bool
  | .make _ .addCounter => true
  | .make _ (.resetCounter _) => true
  | .make _ .create => true
  | _ => false

end Pc

/-- The effect of a move in the child on the counter of its process, and on what it counts. -/
inductive ChildTally (p : ℕ) (l : Pc α) (s : Shared α) (l' : Pc α) (s' : Shared α) : Prop where
  | quiet : l.counting = false → l'.counting = false →
      (∀ m n, l' = .make m (.swapPid n) → n = (s.refs p).counter) → s'.refs p = s.refs p →
      s'.made p = s.made p → ChildTally p l s l' s'
  | again {m : Making} {n : ℕ} : l = .make m (.swapPid n) → l' = .make m .addCounter →
      (s.refs p).pid = p → s'.refs p = s.refs p → s'.made p = s.made p → ChildTally p l s l' s'
  | first {m : Making} {n : ℕ} : l = .make m (.swapPid n) → l' = .make m (.resetCounter n) →
      (s.refs p).pid ≠ p → s'.refs p = { s.refs p with pid := p } → s'.made p = s.made p →
      ChildTally p l s l' s'
  | panic {m : Making} : l = .make m (.swapPid 0) → (s.refs p).pid ≠ p → ChildTally p l s l' s'
  | add {m : Making} : l = .make m .addCounter → l' = .make m .create →
      s'.refs p = { s.refs p with counter := Usize.wrappingAdd (s.refs p).counter 1 } →
      s'.made p = s.made p → ChildTally p l s l' s'
  | reset {m : Making} {n : ℕ} : l = .make m (.resetCounter n) → l' = .make m .create →
      s'.refs p = { s.refs p with counter := Usize.wrappingSub (s.refs p).counter (n - 1) } →
      s'.made p = s.made p → ChildTally p l s l' s'
  | create {m : Making} : l = .make m .create → l' = .idle → s'.refs p = s.refs p →
      s'.made p = s.made p + 1 → ChildTally p l s l' s'

theorem setRefs_self (s : Shared α) (p : ℕ) (r : PerProcessReferences) :
    (s.setRefs p r).refs p = r := if_pos rfl

theorem MakeMoves.childTally {m : Making} {mpc : MakePc} (hm : MakeMoves t m mpc s l' s') :
    ChildTally t.pid (.make m mpc) s l' s' := by
  cases hm with
  | loadCounter =>
    refine .quiet rfl rfl (fun m' n heq => ?_) rfl rfl
    cases heq
    rfl
  | samePid hpid =>
    refine .again rfl rfl hpid ?_ rfl
    rw [setRefs_self]
    exact congrArg (PerProcessReferences.mk _) hpid.symm
  | panic hpid => exact .panic rfl hpid
  | otherPid hpid => exact .first rfl rfl hpid (setRefs_self s _ _) rfl
  | addCounter => exact .add rfl rfl (setRefs_self s _ _) rfl
  | resetCounter => exact .reset rfl rfl (setRefs_self s _ _) rfl
  | create => exact .create rfl rfl rfl (by rw [made_create, if_pos rfl])

/-- **What a move in the child does to its counter.** -/
theorem Moves.childTally (hm : Moves grow t l s l' s') (hl : Owns t l s)
    (hforeign : Foreign t.pid s) (hp : t.pid < s.nextPid) : ChildTally t.pid l s l' s' := by
  have hmade : (∀ m, l ≠ .make m .create) → s'.made t.pid = s.made t.pid :=
    fun hcreate => hm.made hp fun _ => hcreate
  cases hm with
  | asked ha =>
    refine .quiet rfl ?_ (fun m n heq => ?_) ?_ (hmade fun m heq => by cases heq)
    · cases ha <;> rfl
    · subst heq
      cases ha
    · cases ha with
      | fork => exact if_neg (Nat.ne_of_lt hp)
      | _ => rfl
  | op hgoes =>
    refine .quiet rfl rfl (fun m n heq => by cases heq) ?_ (hmade fun m heq => by cases heq)
    rw [op_refs hgoes]
  | ret =>
    exact .quiet rfl rfl (fun m n heq => by cases heq) rfl (hmade fun m heq => by cases heq)
  | make hmake => exact hmake.childTally
  | @drop d pc _ _ _ hdrop =>
    obtain ⟨v, hv, hproc, horiginal, hcloses⟩ := hl
    have hne : v.originalPid ≠ t.pid := hforeign v (List.mem_of_getElem? hv) hproc
    have hquiet : l'.counting = false → (∀ m n, l' ≠ .make m (.swapPid n)) →
        s'.refs t.pid = s.refs t.pid → ChildTally t.pid (.drop d pc) s l' s' :=
      fun hl' hswap hrefs => .quiet rfl hl' (fun m n heq => absurd heq (hswap m n)) hrefs
        (hmade fun m heq => by cases heq)
    cases hdrop with
    | owner hpid => exact absurd (horiginal.trans hpid) hne
    | samePid => exact absurd hcloses.1 hne
    | otherPid => exact absurd hcloses.1 hne
    | last => exact absurd hcloses.1 hne
    | moveAlong => exact absurd hcloses.1 hne
    | _ => exact hquiet rfl (fun m n heq => by cases heq) rfl

namespace Label

/-- A thread of the process calls `Channel::destroy`. -/
def destroysIn (p : ℕ) : Event α → Bool
  | .ask t (.destroy _) => t.pid = p
  | _ => false

end Label

theorem Foreign.asked {input : Input α} (h : Foreign p s) (ha : Asked t s input s' l')
    (hp : p < s.nextPid) (hi : Label.destroysIn p (.ask t input) = false) : Foreign p s' := by
  cases ha with
  | call =>
    refine forall_modifyHandle h fun v _ hv => ?_
    rcases borrowed_borrow t v with heq | ⟨users, -, heq | heq⟩ <;> rw [heq] <;> exact hv
  | make =>
    refine forall_modifyHandle h fun v _ hv => ?_
    rcases borrowed_borrow t v with heq | ⟨users, -, heq | heq⟩ <;> rw [heq] <;> exact hv
  | drop => exact forall_modifyHandle h fun v _ hv => hv
  | @destroy j v hv hproc =>
    -- the process that destroys is another one, and holds the channel itself
    have hne : t.pid ≠ p := of_decide_eq_false hi
    refine forall_modifyHandle h fun w hw _ hwproc => ?_
    cases hw.symm.trans hv
    exact absurd (hproc.symm.trans hwproc) hne
  | fork =>
    intro v hv hproc
    rcases List.mem_append.mp hv with hold | hnew
    · exact h v hold hproc
    · obtain ⟨w, -, rfl⟩ := List.mem_map.mp hnew
      exact absurd hproc (Nat.ne_of_gt hp)

theorem Foreign.moves (h : Foreign p s) (hm : Moves grow t l s l' s') (hl : Owns t l s)
    (hidle : l ≠ .idle) : Foreign p s' := by
  have hgiveBack : ∀ j, Foreign p (s.endBorrow t j) := by
    refine fun j => forall_modifyHandle h fun v _ hv => ?_
    rcases borrowed_giveBack t v with heq | ⟨users, -, heq | heq⟩ <;> rw [heq] <;> exact hv
  have hphase : ∀ j phase, Foreign p (s.setPhase j phase) :=
    fun j phase => forall_modifyHandle h fun v _ hv => hv
  cases hm with
  | asked => exact absurd rfl hidle
  | op hgoes =>
    rw [Foreign, (op_handles hgoes).1]
    exact h
  | ret => exact hgiveBack _
  | @make m mpc _ _ _ hmake =>
    cases hmake with
    | panic => exact hgiveBack m.source
    | create =>
      -- a new value inherits from its source
      obtain ⟨w, users, hw, hproc, horiginal, -⟩ := hl
      intro v hv hvproc
      rcases List.mem_append.mp hv with hold | hnew
      · exact hgiveBack _ v hold hvproc
      · rw [List.mem_singleton.mp hnew] at hvproc ⊢
        rw [← horiginal]
        exact h w (List.mem_of_getElem? hw) (hproc.trans hvproc)
    | _ => exact h
  | drop hdrop =>
    cases hdrop with
    | loadZero => exact hphase _ _
    | reachZero => exact hphase _ _
    | subtract => exact hphase _ _
    | exchangeZero => exact hphase _ _
    | foreign => exact hphase _ _
    | moveAlong => exact hphase _ _
    | freeReferences => exact hphase _ _
    | _ => exact h

theorem Foreign.step (h : Foreign p c.shared) (howned : Owned c) (hp : p < c.shared.nextPid)
    (hi : Label.destroysIn p i = false) (hstep : Step (program grow) c i c') :
    Foreign p c'.shared := by
  rcases hstep.moves with ⟨l, l', hl, -, hgoes⟩ | ⟨hs, -⟩
  · by_cases hidle : l = .idle
    · subst hidle
      obtain ⟨input, l₁, heq, hclient, -⟩ := hstep.of_ask hl rfl
      rw [heq] at hi
      exact h.asked (client_cases hclient) hp hi
    · exact h.moves (moves_of_goes hgoes) (howned.holds.running hl) hidle
  · rw [hs]
    exact h

/-! ## The counter of the child -/

/-- About to make a value, after an addition to the counter of the process. -/
def Creating (p : ℕ) (u : Tid) (l : Pc α) : Prop := u.pid = p ∧ ∃ m, l = .make m .create

/-- About to set the counter of the process to 1. -/
def Resetting (p : ℕ) (u : Tid) (l : Pc α) : Prop :=
  u.pid = p ∧ ∃ m n, l = .make m (.resetCounter n)

/-- The counter is still the copy that `fork` has made, and nothing has been made. -/
structure Copied (p k : ℕ) (c : State α) : Prop where
  counter : (c.shared.refs p).counter = k
  pid : (c.shared.refs p).pid ≠ p
  making : ∀ {u l}, u.pid = p → c.threads u = .running l →
    l.counting = false ∧ ∀ m n, l = .make m (.swapPid n) → n = k
  made : c.shared.made p = 0

/-- The process has taken its counter over. What the one reset has yet to take away is `k - 1`. -/
structure Taken (p k : ℕ) (c : State α) : Prop where
  pid : (c.shared.refs p).pid = p
  resets : ∀ {u m n}, u.pid = p → c.threads u = .running (.make m (.resetCounter n)) → n = k
  counter : ∃ us rs, Census (Creating p) c us ∧ Census (Resetting p) c rs ∧ rs.length ≤ 1 ∧
    0 < c.shared.made p + us.length + rs.length ∧
    (c.shared.refs p).counter ≡ c.shared.made p + us.length + k * rs.length [MOD usizeLimit]

/-- A step that leaves the copied counter alone. -/
theorem Copied.of_quiet (h : Copied p k c) (hstep : Step (program grow) c i c')
    (hafter : i.mover.pid = p → ∀ l', c'.threads i.mover = .running l' →
      l'.counting = false ∧ ∀ m n, l' = .make m (.swapPid n) → n = (c.shared.refs p).counter)
    (hrefs : c'.shared.refs p = c.shared.refs p) (hmade : c'.shared.made p = c.shared.made p) :
    Copied p k c' where
  counter := by
    rw [hrefs]
    exact h.counter
  pid := by
    rw [hrefs]
    exact h.pid
  making {u l} hu ht := by
    by_cases hmover : u = i.mover
    · subst hmover
      rw [← h.counter]
      exact hafter hu l ht
    · rw [hstep.others hmover] at ht
      exact h.making hu ht
  made := hmade.trans h.made

/-- The first `increase` takes the counter over, and nobody else is inside one after its swap. -/
theorem Copied.first (h : Copied p k c) (hstep : Step (program grow) c i c')
    (hpid : i.mover.pid = p) {m : Making} {n : ℕ}
    (ht : c.threads i.mover = .running (.make m (.swapPid n)))
    (ht' : c'.threads i.mover = .running (.make m (.resetCounter n)))
    (hrefs : c'.shared.refs p = { c.shared.refs p with pid := p })
    (hmade : c'.shared.made p = c.shared.made p) : Taken p k c' := by
  have hn : n = k := (h.making hpid ht).2 m n rfl
  subst hn
  have hothers : ∀ {u l}, u.pid = p → u ≠ i.mover → c'.threads u = .running l →
      l.counting = false := by
    intro u l hu hne hl
    rw [hstep.others hne] at hl
    exact (h.making hu hl).1
  have hcreating : Census (Creating p) c' [] := by
    refine .empty fun u hat => ?_
    obtain ⟨l, hl, hu, m', rfl⟩ := hat
    by_cases hmover : u = i.mover
    · subst hmover
      cases ht'.symm.trans hl
    · cases hothers hu hmover hl
  have hresetting : Census (Resetting p) c' [i.mover] := by
    refine Census.enter (.empty fun u hat => ?_) hstep ?_ ⟨_, ht', hpid, m, n, rfl⟩
    · obtain ⟨l, hl, hu, m', n', rfl⟩ := hat
      cases (h.making hu hl).1
    · rintro ⟨l, hl, hu, m', n', rfl⟩
      cases (h.making hu hl).1
  refine ⟨by rw [hrefs], ?_, [], [i.mover], hcreating, hresetting, Nat.le_refl _, ?_, ?_⟩
  · intro u m' n' hu hl
    by_cases hmover : u = i.mover
    · subst hmover
      cases ht'.symm.trans hl
      rfl
    · cases hothers hu hmover hl
  · exact Nat.succ_pos _
  · rw [hrefs, hmade, h.made]
    show (c.shared.refs p).counter ≡ 0 + 0 + n * 1 [MOD usizeLimit]
    rw [h.counter, Nat.zero_add, Nat.mul_one]

/-- Whoever resets the counter takes `k - 1` away, when the thread that moves does. -/
theorem Taken.resets_step (h : Taken p k c) (hstep : Step (program grow) c i c')
    (hmover : ∀ {m n}, i.mover.pid = p →
      c'.threads i.mover = .running (.make m (.resetCounter n)) → n = k) {m : Making} {n : ℕ}
    (hu : u.pid = p) (hl : c'.threads u = .running (.make m (.resetCounter n))) : n = k := by
  by_cases heq : u = i.mover
  · subst heq
    exact hmover hu hl
  · rw [hstep.others heq] at hl
    exact h.resets hu hl

/-- A step that neither begins nor ends an addition. -/
theorem Taken.same (h : Taken p k c) (hstep : Step (program grow) c i c')
    (hcreating : At (Creating p) c' i.mover ↔ At (Creating p) c i.mover)
    (hresetting : At (Resetting p) c' i.mover ↔ At (Resetting p) c i.mover)
    (hresets : ∀ {m n}, i.mover.pid = p →
      c'.threads i.mover = .running (.make m (.resetCounter n)) → n = k)
    (hrefs : c'.shared.refs p = c.shared.refs p) (hmade : c'.shared.made p = c.shared.made p) :
    Taken p k c' := by
  obtain ⟨us, rs, hus, hrs, hone, hpos, hcounter⟩ := h.counter
  refine ⟨by rw [hrefs]; exact h.pid, h.resets_step hstep hresets, us, rs,
    hus.same hstep hcreating, hrs.same hstep hresetting, hone, ?_, ?_⟩
  · rw [hmade]
    exact hpos
  · rw [hrefs, hmade]
    exact hcounter

theorem Taken.of_quiet (h : Taken p k c) (hstep : Step (program grow) c i c')
    (hbefore : i.mover.pid = p → ∀ l, c.threads i.mover = .running l → l.counting = false)
    (hafter : i.mover.pid = p → ∀ l', c'.threads i.mover = .running l' → l'.counting = false)
    (hrefs : c'.shared.refs p = c.shared.refs p) (hmade : c'.shared.made p = c.shared.made p) :
    Taken p k c' := by
  refine h.same hstep (iff_of_false ?_ ?_) (iff_of_false ?_ ?_) (fun hu hl => ?_) hrefs hmade
  · rintro ⟨l, hl, hu, m, rfl⟩
    cases hafter hu _ hl
  · rintro ⟨l, hl, hu, m, rfl⟩
    cases hbefore hu _ hl
  · rintro ⟨l, hl, hu, m, n, rfl⟩
    cases hafter hu _ hl
  · rintro ⟨l, hl, hu, m, n, rfl⟩
    cases hbefore hu _ hl
  · cases hafter hu _ hl

/-- An addition to the counter. -/
theorem Taken.add (h : Taken p k c) (hstep : Step (program grow) c i c')
    (hpid : i.mover.pid = p) {m : Making}
    (ht : c.threads i.mover = .running (.make m .addCounter))
    (ht' : c'.threads i.mover = .running (.make m .create))
    (hrefs : c'.shared.refs p =
      { c.shared.refs p with counter := Usize.wrappingAdd (c.shared.refs p).counter 1 })
    (hmade : c'.shared.made p = c.shared.made p) : Taken p k c' := by
  obtain ⟨us, rs, hus, hrs, hone, hpos, hcounter⟩ := h.counter
  have hreset : ∀ {m' n}, ¬ c'.threads i.mover = .running (.make m' (.resetCounter n)) := by
    intro m' n hl
    cases ht'.symm.trans hl
  refine ⟨by rw [hrefs]; exact h.pid, h.resets_step hstep fun _ hl => absurd hl hreset,
    i.mover :: us, rs, hus.enter hstep ?_ ⟨_, ht', hpid, m, rfl⟩,
    hrs.same hstep (iff_of_false ?_ ?_), hone, ?_, ?_⟩
  · rintro ⟨l, hl, -, m', rfl⟩
    cases ht.symm.trans hl
  · rintro ⟨l, hl, -, m', n, rfl⟩
    exact hreset hl
  · rintro ⟨l, hl, -, m', n, rfl⟩
    cases ht.symm.trans hl
  · rw [List.length_cons]
    omega
  · rw [hrefs, hmade, List.length_cons, ← Nat.add_assoc, Nat.add_right_comm]
    exact Usize.wrappingAdd_modEq hcounter

/-- The reset leaves 1 for the value that is being made, and the additions of the others. -/
theorem Taken.reset (h : Taken p k c) (hstep : Step (program grow) c i c')
    (hpid : i.mover.pid = p) (hpos : 0 < k) (hword : k < usizeLimit) {m : Making} {n : ℕ}
    (ht : c.threads i.mover = .running (.make m (.resetCounter n)))
    (ht' : c'.threads i.mover = .running (.make m .create))
    (hrefs : c'.shared.refs p =
      { c.shared.refs p with counter := Usize.wrappingSub (c.shared.refs p).counter (n - 1) })
    (hmade : c'.shared.made p = c.shared.made p) : Taken p k c' := by
  obtain ⟨us, rs, hus, hrs, hone, -, hcounter⟩ := h.counter
  obtain rfl : n = k := h.resets hpid ht
  have hreset : ∀ {m' n'}, ¬ c'.threads i.mover = .running (.make m' (.resetCounter n')) := by
    intro m' n' hl
    cases ht'.symm.trans hl
  have hat : At (Resetting p) c i.mover := ⟨_, ht, hpid, m, n, rfl⟩
  have hlength := hrs.length_erase hat
  have hrest : (rs.erase i.mover).length = 0 := by omega
  have hrs' : rs.length = 1 := by omega
  refine ⟨by rw [hrefs]; exact h.pid, h.resets_step hstep fun _ hl => absurd hl hreset,
    i.mover :: us, rs.erase i.mover, hus.enter hstep ?_ ⟨_, ht', hpid, m, rfl⟩,
    hrs.leave hstep ?_, by omega, ?_, ?_⟩
  · rintro ⟨l, hl, -, m', rfl⟩
    cases ht.symm.trans hl
  · rintro ⟨l, hl, -, m', n', rfl⟩
    exact hreset hl
  · rw [List.length_cons]
    omega
  · rw [hrefs, hmade, List.length_cons, hrest, Nat.mul_zero, Nat.add_zero]
    rw [hrs', Nat.mul_one] at hcounter
    refine Usize.wrappingSub_modEq (by omega) ?_
    have hsum : c.shared.made p + (us.length + 1) + (n - 1) = c.shared.made p + us.length + n := by
      omega
    rwa [hsum]

/-- The value is made. -/
theorem Taken.create (h : Taken p k c) (hstep : Step (program grow) c i c')
    (hpid : i.mover.pid = p) {m : Making} (ht : c.threads i.mover = .running (.make m .create))
    (ht' : c'.threads i.mover = .running .idle) (hrefs : c'.shared.refs p = c.shared.refs p)
    (hmade : c'.shared.made p = c.shared.made p + 1) : Taken p k c' := by
  obtain ⟨us, rs, hus, hrs, hone, hpos, hcounter⟩ := h.counter
  have hat : At (Creating p) c i.mover := ⟨_, ht, hpid, m, rfl⟩
  have hlength := hus.length_erase hat
  refine ⟨by rw [hrefs]; exact h.pid, h.resets_step hstep fun _ hl => ?_, us.erase i.mover, rs,
    hus.leave hstep ?_, hrs.same hstep (iff_of_false ?_ ?_), hone, by omega, ?_⟩
  · cases ht'.symm.trans hl
  · rintro ⟨l, hl, -, m', rfl⟩
    cases ht'.symm.trans hl
  · rintro ⟨l, hl, -, m', n, rfl⟩
    cases ht'.symm.trans hl
  · rintro ⟨l, hl, -, m', n, rfl⟩
    cases ht.symm.trans hl
  · have hsum : c.shared.made p + 1 + (us.erase i.mover).length = c.shared.made p + us.length := by
      omega
    rw [hrefs, hmade, hsum]
    exact hcounter

/-- What a run of the child keeps while it does not destroy its channel: the counter was `k` when
the process was forked. -/
structure Child (p k : ℕ) (c : State α) : Prop where
  owned : Owned c
  refs : RefsKnown c.shared
  born : p < c.shared.nextPid
  foreign : Foreign p c.shared
  stage : Copied p k c ∨ Taken p k c

/-- A step that leaves the counter alone, and what it counts. -/
theorem Child.of_quiet (h : Child p k c) (hstep : Step (program grow) c i c')
    (hbefore : i.mover.pid = p → ∀ l, c.threads i.mover = .running l → l.counting = false)
    (hafter : i.mover.pid = p → ∀ l', c'.threads i.mover = .running l' →
      l'.counting = false ∧ ∀ m n, l' = .make m (.swapPid n) → n = (c.shared.refs p).counter)
    (hrefs : c'.shared.refs p = c.shared.refs p) (hmade : c'.shared.made p = c.shared.made p) :
    Copied p k c' ∨ Taken p k c' :=
  h.stage.imp (fun hcopied => hcopied.of_quiet hstep hafter hrefs hmade) fun htaken =>
    htaken.of_quiet hstep hbefore (fun hpid l' hl' => (hafter hpid l' hl').1) hrefs hmade

/-- A move of a thread of the child. -/
theorem Child.tally (h : Child p k c) (hpos : 0 < k) (hword : k < usizeLimit)
    (hstep : Step (program grow) c i c') (hpid : i.mover.pid = p)
    (ht : c.threads i.mover = .running l) (ht' : c'.threads i.mover = .running l')
    (htally : ChildTally p l c.shared l' c'.shared) : Copied p k c' ∨ Taken p k c' := by
  cases htally with
  | quiet hbefore hafter hswap hrefs hmade =>
    refine h.of_quiet hstep (fun _ l₀ hl₀ => ?_) (fun _ l₁ hl₁ => ?_) hrefs hmade
    · cases ht.symm.trans hl₀
      exact hbefore
    · cases ht'.symm.trans hl₁
      exact ⟨hafter, hswap⟩
  | again hl hl' hknown hrefs hmade =>
    subst hl
    subst hl'
    rcases h.stage with hcopied | htaken
    · exact absurd hknown hcopied.pid
    · refine Or.inr (htaken.same hstep (iff_of_false ?_ ?_) (iff_of_false ?_ ?_) ?_ hrefs hmade)
      · rintro ⟨l₁, hl₁, -, m, rfl⟩
        cases ht'.symm.trans hl₁
      · rintro ⟨l₁, hl₁, -, m, rfl⟩
        cases ht.symm.trans hl₁
      · rintro ⟨l₁, hl₁, -, m, n, rfl⟩
        cases ht'.symm.trans hl₁
      · rintro ⟨l₁, hl₁, -, m, n, rfl⟩
        cases ht.symm.trans hl₁
      · intro m n _ hl₁
        cases ht'.symm.trans hl₁
  | first hl hl' hother hrefs hmade =>
    subst hl
    subst hl'
    rcases h.stage with hcopied | htaken
    · exact Or.inr (hcopied.first hstep hpid ht ht' hrefs hmade)
    · exact absurd htaken.pid hother
  | panic hl hother =>
    subst hl
    rcases h.stage with hcopied | htaken
    · -- the copy is not zero
      exact absurd ((hcopied.making hpid ht).2 _ _ rfl) (Nat.ne_of_lt hpos)
    · exact absurd htaken.pid hother
  | add hl hl' hrefs hmade =>
    subst hl
    subst hl'
    rcases h.stage with hcopied | htaken
    · cases (hcopied.making hpid ht).1
    · exact Or.inr (htaken.add hstep hpid ht ht' hrefs hmade)
  | reset hl hl' hrefs hmade =>
    subst hl
    subst hl'
    rcases h.stage with hcopied | htaken
    · cases (hcopied.making hpid ht).1
    · exact Or.inr (htaken.reset hstep hpid hpos hword ht ht' hrefs hmade)
  | create hl hl' hrefs hmade =>
    subst hl
    subst hl'
    rcases h.stage with hcopied | htaken
    · cases (hcopied.making hpid ht).1
    · exact Or.inr (htaken.create hstep hpid ht ht' hrefs hmade)

/-- **One step of a run of the child.** -/
theorem Child.step (h : Child p k c) (hpos : 0 < k) (hword : k < usizeLimit)
    (hi : Label.destroysIn p i = false) (hstep : Step (program grow) c i c') : Child p k c' := by
  rcases hstep.moves with ⟨l, l', hl, hl', hgoes⟩ | ⟨hs, hwait⟩
  · have hm := moves_of_goes hgoes
    have howns := h.owned.holds.running hl
    refine ⟨h.owned.step hstep, h.refs.moves hm howns h.owned.holds.global,
      Nat.lt_of_lt_of_le h.born hm.nextPid_le, h.foreign.step h.owned h.born hi hstep, ?_⟩
    by_cases hpid : i.mover.pid = p
    · subst hpid
      exact h.tally hpos hword hstep rfl hl hl' (hm.childTally howns h.foreign h.born)
    · exact h.of_quiet hstep (fun heq => absurd heq hpid) (fun heq => absurd heq hpid)
        (hm.refs_of_ne (Ne.symm hpid) h.born) (hm.made h.born fun heq => absurd heq hpid)
  · refine ⟨h.owned.step hstep, by rw [hs]; exact h.refs, by rw [hs]; exact h.born,
      by rw [hs]; exact h.foreign, ?_⟩
    -- the thread is inside an operation, before the step and after it
    refine h.of_quiet hstep (fun _ l hl => ?_) (fun _ l' hl' => ?_) (by rw [hs]) (by rw [hs])
    · obtain ⟨cv, next, late, heq⟩ := hwait l hl
      obtain ⟨j, op, opc, rfl⟩ := op_of_wait heq
      rfl
    · obtain ⟨j, op, opc, rfl⟩ := op_of_still h.owned.holds hstep hwait hl'
      exact ⟨rfl, fun m n heq => by cases heq⟩

/-- A process that there is not yet has no threads at work. -/
theorem idle_of_unborn (h : Owned c) (hu : c.shared.nextPid ≤ u.pid) :
    c.threads u = .running .idle := by
  have hnone : ∀ {j : ℕ} {w : Handle}, c.shared.handles[j]? = some w → w.proc ≠ u.pid :=
    fun hw heq => Nat.not_lt.mpr hu (heq ▸ (h.holds.global _ (List.mem_of_getElem? hw)).1)
  apply idle_of_unneeded h
  · intro j w users hw hproc
    exact absurd hproc (hnone hw)
  · intro d pc ht
    obtain ⟨w, hw, hproc, -⟩ := h.holds.running ht
    exact hnone hw hproc

theorem fork_of_ask (hstep : Step (program grow) c (.ask u .fork) c') :
    c.threads u = .running .idle ∧ c'.threads u = .running .idle ∧ u.pid < c.shared.nextPid ∧
      c'.shared = c.shared.fork u.pid := by
  cases hstep with
  | @ask _ l l' _ s' f ht ha hf =>
    have hidle : l = .idle := by
      cases l with
      | idle => rfl
      | op j op pc =>
        by_cases hpc : ∃ r, pc = .ret r
        · obtain ⟨r, rfl⟩ := hpc
          cases ha
        · rw [program_op fun r heq => hpc ⟨r, heq⟩] at ha
          cases op <;> cases pc <;> cases ha
      | make m pc => cases pc <;> cases ha
      | drop d pc =>
        cases pc with
        | exchange side counter =>
          cases ha
          cases hf
        | _ => cases ha
    subst hidle
    cases ha
    cases client_cases hf with
    | fork hpid => exact ⟨ht, Config.goto_threads_self _ _ _, hpid, rfl⟩

/-- **A process begins with a copy of its parent's counter.** -/
theorem child_of_fork (hrun : Run (Step (program grow)) (initial capacity) tr c)
    (hfork : Step (program grow) c (.ask u .fork) c') :
    Child c.shared.nextPid (c.shared.refs u.pid).counter c' ∧
      (c.shared.refs u.pid).counter < usizeLimit := by
  obtain ⟨howned, hrefs⟩ := refsKnown_of_run hrun
  obtain ⟨ht, ht', hpid, hs⟩ := fork_of_ask hfork
  have hknown : ∀ v ∈ c'.shared.handles,
      v.creator < c.shared.nextPid ∧ v.originalPid < c.shared.nextPid := by
    intro v hv
    rw [hs] at hv
    rcases List.mem_append.mp hv with hold | hnew
    · exact (howned.holds.global v hold).2
    · obtain ⟨w, hw, rfl⟩ := List.mem_map.mp hnew
      exact (howned.holds.global w (List.mem_filter.mp hw).1).2
  have hcopy : c'.shared.refs c.shared.nextPid = c.shared.refs u.pid := by
    rw [hs]
    exact if_pos rfl
  have hidle : ∀ {w}, w.pid = c.shared.nextPid → c'.threads w = .running .idle := by
    intro w hw
    by_cases hwu : w = u
    · rw [hwu]
      exact ht'
    · exact (hfork.others hwu).trans (idle_of_unborn howned (Nat.le_of_eq hw.symm))
  refine ⟨⟨howned.step hfork, ?_, ?_, ?_, Or.inl ⟨?_, ?_, ?_, ?_⟩⟩, (hrefs u.pid).1⟩
  · rw [hs]
    have hm : Moves grow u .idle c.shared .idle (c.shared.fork u.pid) := .asked (.fork hpid)
    exact hrefs.moves hm trivial howned.holds.global
  · rw [hs]
    exact Nat.lt_succ_self _
  · exact fun v hv _ => Nat.ne_of_lt (hknown v hv).2
  · rw [hcopy]
  · rw [hcopy]
    exact Nat.ne_of_lt (hrefs u.pid).2
  · intro w l hw hl
    cases (hidle hw).symm.trans hl
    exact ⟨rfl, fun m n heq => by cases heq⟩
  · refine List.countP_eq_zero.mpr fun v hv => ?_
    simp [Handle.madeBy, Nat.ne_of_lt (hknown v hv).1]

/-- **What the counter says** when the child is inside no call: the number of values that it has
made, unless it has made none. -/
theorem Child.last_iff (h : Child p k c) (hidle : ∀ u, u.pid = p → c.threads u = .running .idle) :
    (c.shared.refs p).LastIn p ↔
      c.shared.made p = 0 ∨ c.shared.made p % usizeLimit = 1 := by
  rcases h.stage with hcopied | htaken
  · exact iff_of_true (fun hpid => absurd hpid hcopied.pid) (Or.inl hcopied.made)
  · obtain ⟨us, rs, hus, hrs, -, hpos, hcounter⟩ := htaken.counter
    have hnone : us = [] := by
      refine hus.eq_nil fun u hat => ?_
      obtain ⟨l, hl, hu, m, rfl⟩ := hat
      cases (hidle u hu).symm.trans hl
    have hnone' : rs = [] := by
      refine hrs.eq_nil fun u hat => ?_
      obtain ⟨l, hl, hu, m, n, rfl⟩ := hat
      cases (hidle u hu).symm.trans hl
    subst hnone
    subst hnone'
    have heq : (c.shared.refs p).counter = c.shared.made p % usizeLimit :=
      (Nat.mod_eq_of_lt (h.refs p).1).symm.trans hcounter
    have hmade : c.shared.made p ≠ 0 := Nat.ne_of_gt hpos
    rw [← heq, or_iff_right hmade]
    exact ⟨fun hlast => hlast htaken.pid, fun hone _ => hone⟩

end ShmemUtils.Channel
