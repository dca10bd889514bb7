import ShmemUtils.Channel.Ownership

/-!
# Who touches `Inner` after it was freed

`Channel::drop` frees `Inner` when the process that created the channel drops its last handle. The
senders and receivers that other processes have made are not counted there. So the teardown is the
only user of `Inner` if they were all dropped by then, and if the inherited channels that remain
are at most cloned and dropped.
-/

namespace ShmemUtils.Channel

open ShmemUtils.Library ShmemUtils.Library.Monitor

variable {α : Type} {grow : ℕ → Option ℕ} {t u : Tid} {l l' : Pc α} {s s' : Shared α}
  {capacity : ℕ} {c c' : State α} {i : Event α} {tr : Trace α} {v w : Handle} {k : ℕ}

/-! ## Accesses -/

namespace DropPc

/-- The next step is an access to `Inner`. The others are to the counter of the process. -/
def touches : DropPc → Bool
  | .checkPid => false
  | .swapPid => false
  | .subCounter => false
  | .freeReferences => false
  | _ => true

end DropPc

namespace Pc

/-- The next step of the thread is an access to `Inner`. -/
def touches : Pc α → Bool
  | .idle => false
  | .op _ _ (.ret _) => false
  | .op _ _ _ => true
  -- `senders.fetch_add`, `receivers.fetch_add`
  | .make m .create => m.kind ≠ .channel
  | .make _ _ => false
  | .drop _ pc => pc.touches

end Pc

/-- When `Inner` is freed nobody else holds its mutex or is inside a wait, and after that no step
touches it. -/
def TeardownExclusive (c : State α) (i : Event α) : Prop :=
  (∀ d, c.threads i.mover = .running (.drop d .freeInner) →
    ∀ u, u ≠ i.mover → c.owner ≠ some u ∧ ∃ l, c.threads u = .running l) ∧
  (c.shared.innerFrees ≠ 0 → ∃ l, c.threads i.mover = .running l ∧ l.touches = false)

/-! ## The condition -/

/-- The thread is done with `Inner`: it clones an inherited channel, or is at the end of a drop. -/
def Done (t : Tid) : Pc α → Prop
  | .idle => True
  | .make m _ => m.kind = .channel ∧ m.originalPid ≠ t.pid
  | .drop d .checkPid => d.originalPid ≠ t.pid
  | .drop _ .freeReferences => True
  | _ => False

/-- The value is gone, or an inherited channel from which nobody makes a sender or receiver, or
inherits its channel and is at the end of its drop. -/
def SetAside (c : State α) (k : ℕ) (v : Handle) : Prop :=
  v.phase = .gone ∨
    v.originalPid ≠ v.proc ∧ (v.isLive = true → v.kind = .channel) ∧
      (∀ u m pc, c.threads u = .running (.make m pc) → m.source = k → m.kind = .channel) ∧
      ∀ u d pc, c.threads u = .running (.drop d pc) → d.handle = k → pc = .checkPid

namespace Label

/-- A client asks for a sender or a receiver, or for the destruction of a channel. -/
def reopens : Event α → Bool
  | .ask _ (.make _ kind) => kind ≠ .channel
  | .ask _ (.destroy _) => true
  | _ => false

end Label

/-- Whoever frees `Inner` finds all other values set aside, and afterwards no channel is put to use
again. -/
def Alone (c : State α) (i : Event α) : Prop :=
  (∀ d, c.threads i.mover = .running (.drop d .freeInner) →
    ∀ k v, k ≠ d.handle → c.shared.handles[k]? = some v → SetAside c k v) ∧
  (c.shared.innerFrees ≠ 0 → Label.reopens i = false)

/-! ## After the free -/

/-- A value that can still be used is an inherited channel. -/
def Handle.Inert (v : Handle) : Prop :=
  v.isLive = true → v.kind = .channel ∧ v.originalPid ≠ v.proc

/-- Nobody needs `Inner`: neither a handle that remains, nor a thread. -/
structure Abandoned (c : State α) : Prop where
  handles : ∀ v ∈ c.shared.handles, v.Inert
  threads : ∀ u, ∃ l, c.threads u = .running l ∧ Done u l

theorem Done.not_touches (h : Done t l) : l.touches = false := by
  cases l with
  | idle => rfl
  | op => exact h.elim
  | make m pc =>
    cases pc with
    | create => simp [Pc.touches, h.1]
    | _ => rfl
  | drop d pc =>
    cases pc with
    | checkPid => rfl
    | freeReferences => rfl
    | _ => exact h.elim

theorem Done.not_holding (h : Done t l) : l.holding = false := by
  cases l with
  | op => exact h.elim
  | drop d pc =>
    cases pc with
    | unlock => exact h.elim
    | _ => rfl
  | _ => rfl

theorem Done.not_wait (h : Done t l) {cv : Side} {next : Pc α} {late : Option (Pc α)} :
    program grow t l ≠ .wait cv next late := by
  intro hwait
  cases l with
  | idle => cases hwait
  | op => exact h.elim
  | make m pc => cases pc <;> cases hwait
  | drop d pc =>
    cases pc with
    | checkPid => cases hwait
    | freeReferences => cases hwait
    | _ => exact h.elim

theorem Op.kind_ne_channel (op : Op α) : op.kind ≠ .channel := by
  cases op <;> simp [Op.kind]

/-- Where all other handles are set aside, all other threads are done with `Inner`. -/
theorem done_of_setAside (h : Owned c) {d : Dropping} {pc : DropPc}
    (ht : c.threads t = .running (.drop d pc))
    (haside : ∀ k v, k ≠ d.handle → c.shared.handles[k]? = some v → SetAside c k v)
    (hne : u ≠ t) : ∃ l, c.threads u = .running l ∧ Done u l := by
  obtain ⟨v₀, hv₀, -, -, hcloses⟩ := h.holds.running ht
  -- a handle in use is not the one that is dropped, so it is an inherited channel
  have hused : ∀ {k : ℕ} {v : Handle} {users : List Tid}, c.shared.handles[k]? = some v →
      v.phase = .live users → k ≠ d.handle ∧ v.originalPid ≠ v.proc ∧ v.kind = .channel := by
    intro k v users hv hphase
    have hk : k ≠ d.handle := by
      rintro rfl
      cases hv.symm.trans hv₀
      exact hcloses.ne_live users hphase
    rcases haside k v hk hv with hgone | ⟨hforeign, hkind, -⟩
    · cases hphase.symm.trans hgone
    · exact ⟨hk, hforeign, hkind (Handle.isLive_of_phase hphase)⟩
  -- a sleeper uses a sender or a receiver, which is no channel
  have hasleep : ∀ {l : Pc α}, ¬ ownershipOutline.asleep u l c.shared := by
    rintro l ⟨⟨k, op, opc, rfl⟩, v, users, hv, -, hkind, hphase, -⟩
    exact op.kind_ne_channel (hkind.symm.trans (hused hv hphase).2.2)
  have hat := h.holds.at_ u
  cases hu : c.threads u with
  | blocked cv next late =>
    rw [hu] at hat
    exact absurd hat.1 hasleep
  | woken next =>
    rw [hu] at hat
    exact absurd hat hasleep
  | running l =>
    rw [hu] at hat
    refine ⟨l, rfl, ?_⟩
    cases l with
    | idle => trivial
    | op k op opc =>
      obtain ⟨v, users, hv, -, hkind, hphase, -⟩ := hat
      exact absurd (hkind.symm.trans (hused hv hphase).2.2) op.kind_ne_channel
    | make m mpc =>
      obtain ⟨v, users, hv, hproc, horiginal, hphase, -⟩ := hat
      obtain ⟨hk, hforeign, -⟩ := hused hv hphase
      rcases haside _ v hk hv with hgone | ⟨-, -, hmake, -⟩
      · cases hphase.symm.trans hgone
      · exact ⟨hmake u m mpc hu rfl, by rwa [← horiginal, ← hproc]⟩
    | drop d' dpc =>
      obtain ⟨v, hv, hproc, horiginal, hcloses'⟩ := hat
      -- two drops are never of the same handle
      have hk : d'.handle ≠ d.handle :=
        fun heq => h.distinct hne ht hu ⟨d, pc, d', dpc, rfl, rfl, heq.symm⟩
      rcases haside _ v hk hv with hgone | ⟨hforeign, -, -, hdrop⟩
      · exact absurd hgone (DropPc.Closes.not_gone hcloses')
      · cases hdrop u d' dpc hu rfl
        show d'.originalPid ≠ u.pid
        rwa [← horiginal, ← hproc]

/-! ## One step -/

/-- Only the step that frees `Inner` counts as one. -/
theorem Moves.innerFrees (hm : Moves grow t l s l' s') :
    s'.innerFrees = s.innerFrees ∨ ∃ d, l = .drop d .freeInner ∧ l' = .drop d .freeReferences ∧
      s'.handles = s.handles := by
  rcases hm.frees with ⟨-, heq⟩ | ⟨d, rfl | rfl⟩
  · exact Or.inl heq
  · cases hm with
    | drop hd =>
      cases hd
      exact Or.inl rfl
  · cases hm with
    | drop hd =>
      cases hd
      exact Or.inr ⟨d, rfl, rfl, rfl⟩

/-- The step that frees `Inner` leaves nobody behind who needs it. -/
theorem abandoned_of_free (h : Owned c) (hstep : Step (program grow) c i c') {d : Dropping}
    (ht : c.threads i.mover = .running (.drop d .freeInner))
    (ht' : c'.threads i.mover = .running (.drop d .freeReferences))
    (hs : c'.shared.handles = c.shared.handles) (hok : Alone c i) : Abandoned c' where
  handles := by
    intro v hv hlive
    rw [hs] at hv
    obtain ⟨k, hk⟩ := List.mem_iff_getElem?.mp hv
    have hne : k ≠ d.handle := by
      rintro rfl
      obtain ⟨v₀, hv₀, -, -, hcloses⟩ := h.holds.running ht
      cases hk.symm.trans hv₀
      rw [hcloses.not_live] at hlive
      cases hlive
    rcases hok.1 d ht k v hne hk with hgone | ⟨hforeign, hkind, -⟩
    · rw [Handle.not_live_of_gone hgone] at hlive
      cases hlive
    · exact ⟨hkind hlive, hforeign⟩
  threads u := by
    by_cases hu : u = i.mover
    · subst hu
      exact ⟨_, ht', trivial⟩
    · rw [hstep.others hu]
      exact done_of_setAside h ht (hok.1 d ht) hu

theorem Handle.Inert.borrowed (h : v.Inert) (hb : Borrowed t v w) : w.Inert := by
  rcases hb with rfl | ⟨users, hphase, rfl | rfl⟩
  · exact h
  · exact fun _ => h (Handle.isLive_of_phase hphase)
  · exact fun _ => h (Handle.isLive_of_phase hphase)

theorem inert_setPhase {phase : Phase} (hphase : ∀ users, phase ≠ .live users)
    (h : ∀ v ∈ s.handles, v.Inert) : ∀ v ∈ (s.setPhase k phase).handles, v.Inert := by
  refine forall_modifyHandle h fun v _ _ hlive => ?_
  obtain ⟨users, heq⟩ := exists_users hlive
  exact absurd heq (hphase users)

/-- A request that opens nothing leaves the thread done with `Inner`. -/
theorem Asked.done {input : Input α} (ha : Asked t s input s' l')
    (hinput : Label.reopens (.ask t input) = false) (hknown : ∀ v ∈ s.handles, v.Known s.nextPid)
    (hinert : ∀ v ∈ s.handles, v.Inert) : Done t l' ∧ ∀ v ∈ s'.handles, v.Inert := by
  cases ha with
  | @call k op v hv hkind _ _ hlive =>
    have hchannel := (hinert v (List.mem_of_getElem? hv) hlive).1
    exact absurd (hkind.symm.trans hchannel) op.kind_ne_channel
  | @make k kind v hv hproc hlive _ =>
    have hforeign := (hinert v (List.mem_of_getElem? hv) hlive).2
    have hkind : kind = .channel := by simpa [Label.reopens] using hinput
    refine ⟨⟨hkind, hproc ▸ hforeign⟩, ?_⟩
    exact forall_modifyHandle hinert fun v _ hv => hv.borrowed (borrowed_borrow t v)
  | @drop k v hv hproc hphase =>
    have hlive : v.isLive = true := Handle.isLive_of_phase hphase
    obtain ⟨hkind, hforeign⟩ := hinert v (List.mem_of_getElem? hv) hlive
    refine ⟨?_, inert_setPhase (fun _ heq => by cases heq) hinert⟩
    rw [hkind]
    show v.originalPid ≠ t.pid
    exact hproc ▸ hforeign
  | destroy => cases hinput
  | fork =>
    refine ⟨trivial, fun v hv => ?_⟩
    rcases List.mem_append.mp hv with hold | hnew
    · exact hinert v hold
    · obtain ⟨w, hw, rfl⟩ := List.mem_map.mp hnew
      obtain ⟨hmem, hfilter⟩ := List.mem_filter.mp hw
      have hlive : w.isLive = true := (Bool.and_eq_true_iff.mp hfilter).2
      exact fun _ => ⟨(hinert w hmem hlive).1, Nat.ne_of_lt (hknown w hmem).2.2⟩

/-- A thread that is done with `Inner` stays so. -/
theorem Moves.done (hm : Moves grow t l s l' s') (hl : Done t l) (hidle : l ≠ .idle)
    (hinert : ∀ v ∈ s.handles, v.Inert) : Done t l' ∧ ∀ v ∈ s'.handles, v.Inert := by
  have hgiveBack : ∀ k, ∀ v ∈ (s.endBorrow t k).handles, v.Inert :=
    fun k => forall_modifyHandle hinert fun v _ hv => hv.borrowed (borrowed_giveBack t v)
  have hgone : ∀ k, ∀ v ∈ (s.setPhase k .gone).handles, v.Inert :=
    fun k => inert_setPhase (fun _ heq => by cases heq) hinert
  cases hm with
  | asked => exact absurd rfl hidle
  | op => exact hl.elim
  | ret => exact hl.elim
  | @make m pc _ _ _ hmake =>
    cases hmake with
    | panic => exact ⟨trivial, hgiveBack _⟩
    | create =>
      refine ⟨trivial, fun v hv => ?_⟩
      rcases List.mem_append.mp hv with hold | hnew
      · exact hgiveBack _ v hold
      · rw [List.mem_singleton.mp hnew]
        exact fun _ => hl
    | _ => exact ⟨hl, hinert⟩
  | drop hdrop =>
    cases hdrop with
    | foreign => exact ⟨trivial, hgone _⟩
    | owner hpid => exact absurd hpid hl
    | freeReferences => exact ⟨trivial, hgone _⟩
    | _ => exact hl.elim

/-- A step that opens nothing leaves `Inner` abandoned. -/
theorem Abandoned.step (h : Abandoned c) (howned : Owned c) (hstep : Step (program grow) c i c')
    (hi : Label.reopens i = false) : Abandoned c' := by
  obtain ⟨l, ht, hdone⟩ := h.threads i.mover
  have hmoved : ∃ l', c'.threads i.mover = .running l' ∧ Done i.mover l' ∧
      ∀ v ∈ c'.shared.handles, v.Inert := by
    by_cases hidle : l = .idle
    · subst hidle
      obtain ⟨input, l', heq, hclient, ht'⟩ := hstep.of_ask ht rfl
      rw [heq] at hi
      exact ⟨l', ht', (client_cases hclient).done hi howned.holds.global h.handles⟩
    · rcases hstep.goes ht with ⟨l', ht', hgoes⟩ | ⟨cv, next, late, hwait, -⟩
      · exact ⟨l', ht', (moves_of_goes hgoes).done hdone hidle h.handles⟩
      · exact absurd hwait hdone.not_wait
  obtain ⟨l', ht', hdone', hinert⟩ := hmoved
  refine ⟨hinert, fun u => ?_⟩
  by_cases hu : u = i.mover
  · subst hu
    exact ⟨l', ht', hdone'⟩
  · rw [hstep.others hu]
    exact h.threads u

/-! ## Runs -/

/-- What a run keeps whose steps meet the condition. -/
structure Kept (c : State α) : Prop where
  owned : Owned c
  abandoned : c.shared.innerFrees ≠ 0 → Abandoned c

theorem Kept.step (h : Kept c) (hok : Alone c i) (hstep : Step (program grow) c i c') :
    Kept c' := by
  refine ⟨h.owned.step hstep, fun hfreed => ?_⟩
  by_cases hbefore : c.shared.innerFrees ≠ 0
  · exact (h.abandoned hbefore).step h.owned hstep (hok.2 hbefore)
  -- this is the step that frees `Inner`
  have hchanged : c'.shared.innerFrees ≠ c.shared.innerFrees := by
    rw [not_not.mp hbefore]
    exact hfreed
  rcases hstep.moves with ⟨l, l', ht, ht', hgoes⟩ | ⟨hs, -⟩
  · rcases (moves_of_goes hgoes).innerFrees with hsame | ⟨d, rfl, rfl, hs⟩
    · exact absurd hsame hchanged
    · exact abandoned_of_free h.owned hstep ht ht' hs hok
  · exact absurd (by rw [hs]) hchanged

/-- A step that meets the condition has `Inner` to itself when it frees it, and leaves it alone
afterwards. -/
theorem Kept.exclusive (h : Kept c) (hok : Alone c i) : TeardownExclusive c i := by
  constructor
  · intro d ht u hu
    obtain ⟨l, hl, hdone⟩ := done_of_setAside h.owned ht (hok.1 d ht) hu
    refine ⟨fun howner => ?_, l, hl⟩
    have hholding := (h.owned.sound.exclusive.of_running hl).1.mp howner
    rw [hdone.not_holding] at hholding
    cases hholding
  · intro hfreed
    obtain ⟨l, hl, hdone⟩ := (h.abandoned hfreed).threads i.mover
    exact ⟨l, hl, hdone.not_touches⟩

/-- Dropping a sender or receiver that is left when `Inner` was freed touches it. -/
theorem touches_of_remaining (hrun : Run (Step (program grow)) (initial capacity) tr c)
    (hfreed : c.shared.innerFrees ≠ 0) (hv : c.shared.handles[k]? = some v)
    (hkind : v.kind ≠ .channel) (hphase : v.phase = .live []) (hu : c.threads u = .running .idle)
    (hproc : v.proc = u.pid) : ∃ tr' c', Run (Step (program grow)) (initial capacity) tr' c' ∧
      tr <:+ tr' ∧ ¬ Throughout TeardownExclusive tr' := by
  obtain ⟨side, hside⟩ : ∃ side, v.kind.dropPc = .load side := by
    cases hk : v.kind with
    | channel => exact absurd hk hkind
    | sender => exact ⟨.item, rfl⟩
    | receiver => exact ⟨.space, rfl⟩
  have hclient : client u (.drop k) c.shared =
      some (c.shared.setPhase k .closing, .drop ⟨k, v.originalPid⟩ (.load side)) := by
    simp only [client, hv, hproc, hphase, hside, and_self, if_true]
  have hasks : Step (program grow) c (.ask u (.drop k)) _ := .ask hu rfl hclient
  have hat := Config.goto_threads_self { c with shared := c.shared.setPhase k .closing } u
    (Thread.running (.drop ⟨k, v.originalPid⟩ (.load side)))
  have hloads : Step (program grow) _ (.run u) _ := .atomic hat rfl
  refine ⟨_, _, (hrun.next hasks).next hloads, ?_, fun hall => ?_⟩
  · exact ⟨[_, _], rfl⟩
  · obtain ⟨l, hl, htouches⟩ := (throughout_cons.mp hall).1.2 hfreed
    cases hat.symm.trans hl
    cases htouches

/-- **Whoever frees `Inner` is its only user**, in every run whose steps meet the condition. And a
sender or receiver that is left when `Inner` was freed is one drop away from touching it. -/
theorem teardown_exclusive_while_alone
    (hrun : Run (Step (program grow)) (initial capacity) tr c) :
    (Throughout Alone tr → Throughout TeardownExclusive tr) ∧
      ∀ (k : ℕ) (v : Handle) (u : Tid), c.shared.innerFrees ≠ 0 →
        c.shared.handles[k]? = some v → v.kind ≠ .channel → v.phase = .live [] →
          c.threads u = .running .idle → v.proc = u.pid →
            ∃ tr' c', Run (Step (program grow)) (initial capacity) tr' c' ∧ tr <:+ tr' ∧
              ¬ Throughout TeardownExclusive tr' := by
  constructor
  · intro hok x hx
    have hkept := hrun.everywhere (I := Kept)
      ⟨owned_initial capacity, fun hfreed => absurd rfl hfreed⟩
      (fun h hi hstep => h.step hi hstep) hok
    exact (hkept.2 x hx).exclusive (hok x hx)
  · intro k v u hfreed hv hkind hphase hu hproc
    exact touches_of_remaining hrun hfreed hv hkind hphase hu hproc

/-- A condition that can be evaluated: whoever frees `Inner` finds nothing but inherited channels
that nobody uses. -/
def Deserted (c : State α) (i : Event α) : Prop :=
  (match c.threads i.mover with
    | .running (.drop d .freeInner) => ∀ k < c.shared.handles.length, k ≠ d.handle →
        ∀ v ∈ c.shared.handles[k]?, v.phase = .gone ∨
          v.originalPid ≠ v.proc ∧ v.kind = .channel ∧ v.phase = .live []
    | _ => True) ∧
  (c.shared.innerFrees ≠ 0 → Label.reopens i = false)

instance (c : State α) (i : Event α) : Decidable (Deserted c i) := by
  unfold Deserted
  refine @instDecidableAnd _ _ ?_ inferInstance
  split <;> infer_instance

theorem alone_of_deserted (h : Owned c) (hd : Deserted c i) : Alone c i := by
  refine ⟨fun d ht k v hne hv => ?_, hd.2⟩
  have hall := hd.1
  rw [ht] at hall
  obtain ⟨hlt, -⟩ := List.getElem?_eq_some_iff.mp hv
  rcases hall k hlt hne v hv with hgone | ⟨hforeign, hkind, hphase⟩
  · exact Or.inl hgone
  · refine Or.inr ⟨hforeign, fun _ => hkind, fun u m pc hu heq => ?_, fun u d' pc hu heq => ?_⟩
    · obtain ⟨w, users, hw, -, -, hlive, hmem⟩ := h.holds.running hu
      rw [heq] at hw
      cases hw.symm.trans hv
      cases hlive.symm.trans hphase
      cases hmem
    · obtain ⟨w, hw, -, -, hcloses⟩ := h.holds.running hu
      rw [heq] at hw
      cases hw.symm.trans hv
      exact absurd hphase (hcloses.ne_live _)

/-- The child has a sender when the parent begins the teardown, drops it in time, and drops the
channel that it inherited after `Inner` was freed. -/
theorem teardown_exclusive_example : ∃ tr, ∃ c : State ℕ,
    Run (Step (program fun _ => none)) (initial 1) tr c ∧ Throughout TeardownExclusive tr ∧
      c.shared.innerFrees = 1 ∧ ∀ v ∈ c.shared.handles, v.phase = .gone := by
  obtain ⟨tr, c, hrun, hok, htest⟩ := exists_run_of_exec (program fun _ => none)
    (fun c i => decide (Deserted c i)) (initial (α := ℕ) 1)
    ([.ask ⟨0, 0⟩ .fork] ++ making ⟨1, 0⟩ 1 .sender ++ .ask ⟨0, 0⟩ (.drop 0) :: runs ⟨0, 0⟩ 4 ++
      dropping ⟨1, 0⟩ 2 2 ++ runs ⟨0, 0⟩ 11 ++ .ask ⟨1, 0⟩ (.drop 1) :: runs ⟨1, 0⟩ 1)
    (fun c => c.shared.innerFrees = 1 ∧ ∀ v ∈ c.shared.handles, v.phase = .gone) (by decide)
  refine ⟨tr, c, hrun, (teardown_exclusive_while_alone hrun).1 fun x hx => ?_,
    of_decide_eq_true htest⟩
  exact alone_of_deserted ((owned_of_run hrun).2 x hx) (of_decide_eq_true (hok x hx))

/-- The child drops its sender after the parent has freed `Inner`. -/
theorem sender_outlives_inner : ¬ ∀ tr (c : State ℕ),
    Run (Step (program fun _ => none)) (initial 1) tr c → Throughout TeardownExclusive tr := by
  intro h
  obtain ⟨tr, c, hrun, -, htest⟩ := exists_run_of_exec (program fun _ => none)
    (fun _ _ => true) (initial (α := ℕ) 1)
    ([.ask ⟨0, 0⟩ .fork] ++ making ⟨1, 0⟩ 1 .sender ++ .ask ⟨0, 0⟩ (.drop 0) :: runs ⟨0, 0⟩ 16 ++
      [.ask ⟨1, 0⟩ (.drop 2)])
    (fun c => c.shared.innerFrees = 1 ∧ c.threads ⟨1, 0⟩ = .running (.drop ⟨2, 0⟩ (.load .item)))
    (by decide)
  obtain ⟨hfreed, hat⟩ := of_decide_eq_true htest
  have hloads : Step (program fun _ => none) c (.run ⟨1, 0⟩) _ := .atomic hat rfl
  obtain ⟨l, hl, htouches⟩ :=
    (throughout_cons.mp (h _ _ (hrun.next hloads))).1.2 (by rw [hfreed]; exact Nat.one_ne_zero)
  cases hat.symm.trans hl
  cases htouches

end ShmemUtils.Channel
