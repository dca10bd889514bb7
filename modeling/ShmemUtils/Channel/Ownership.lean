import ShmemUtils.Channel.Teardown

/-!
# Who uses which handle

A thread that is inside a call, or makes or drops a handle, is the only one that can end the life of
the handle. `ownershipOutline` says what each thread knows about its handle, and `Distinct` that no
two threads drop the same one.
-/

namespace ShmemUtils.Channel

open ShmemUtils.Library ShmemUtils.Library.Monitor

variable {α : Type} {grow : ℕ → Option ℕ} {t u : Tid} {l l' : Pc α} {s s' : Shared α}
  {capacity : ℕ} {c c' : State α} {i : Event α} {tr : Trace α} {v v' : Handle} {h k : ℕ}

/-! ## What a step does to a handle -/

namespace Shared

theorem getElem?_modifyHandle_self (f : Handle → Handle) (hv : s.handles[k]? = some v) :
    (s.modifyHandle k f).handles[k]? = some (f v) := by
  simp [modifyHandle, hv]

theorem getElem?_modifyHandle_of_ne (f : Handle → Handle) (hne : h ≠ k) :
    (s.modifyHandle h f).handles[k]? = s.handles[k]? := by
  simp [modifyHandle, List.getElem?_modify_ne _ _ hne]

end Shared

/-- The handle stays what it is, in use by thread `u` or not. -/
def Borrowed (u : Tid) (v v' : Handle) : Prop :=
  v' = v ∨ ∃ users, v.phase = .live users ∧
    (v' = { v with phase := .live (u :: users) } ∨ v' = { v with phase := .live (users.erase u) })

theorem borrowed_borrow (u : Tid) (v : Handle) : Borrowed u v (v.borrow u) := by
  unfold Handle.borrow
  split
  · next users hv => exact Or.inr ⟨users, hv, Or.inl rfl⟩
  · exact Or.inl rfl

theorem borrowed_giveBack (u : Tid) (v : Handle) : Borrowed u v (v.giveBack u) := by
  unfold Handle.giveBack
  split
  · next users hv => exact Or.inr ⟨users, hv, Or.inr rfl⟩
  · exact Or.inl rfl

theorem exists_modifyHandle (f : Handle → Handle) (hv : s.handles[k]? = some v)
    (hf : Borrowed u v (f v)) :
    ∃ v', (s.modifyHandle h f).handles[k]? = some v' ∧ Borrowed u v v' := by
  by_cases hk : h = k
  · subst hk
    exact ⟨f v, Shared.getElem?_modifyHandle_self f hv, hf⟩
  · exact ⟨v, by rw [Shared.getElem?_modifyHandle_of_ne f hk, hv], Or.inl rfl⟩

theorem getElem?_append_of_some {vs : List Handle} (hv : s.handles[k]? = some v) :
    (s.handles ++ vs)[k]? = some v := by
  obtain ⟨hk, -⟩ := List.getElem?_eq_some_iff.mp hv
  rw [List.getElem?_append_left hk, hv]

/-- A drop changes the value that it drops, and no other. -/
theorem DropMoves.handle_of_ne {d : Dropping} {pc : DropPc} (hd : DropMoves t d pc s l' s')
    (hne : d.handle ≠ k) : s'.handles[k]? = s.handles[k]? := by
  cases hd <;> first
    | rfl
    | exact Shared.getElem?_modifyHandle_of_ne (s := s) _ hne

theorem op_handles {op : Op α} {pc pc' : OpPc α} (hgoes : (op.action grow t pc).Goes s pc' s') :
    s'.handles = s.handles ∧ s'.nextPid = s.nextPid := by
  rcases op_transfer hgoes with rfl | ⟨-, ⟨item, -, hs⟩ | ⟨-, item, hs⟩⟩
  · exact ⟨rfl, rfl⟩
  · obtain ⟨queue, -, rfl⟩ := Option.map_eq_some_iff.mp hs
    exact ⟨rfl, rfl⟩
  · obtain ⟨r, -, heq⟩ := Option.map_eq_some_iff.mp hs
    cases heq
    exact ⟨rfl, rfl⟩

/-- A move leaves a handle as it is, up to who uses it, unless it drops the handle. -/
theorem Moves.handle (hm : Moves grow u l s l' s') (hv : s.handles[k]? = some v) :
    (∃ v', s'.handles[k]? = some v' ∧ Borrowed u v v') ∨
      (l = .idle ∧ v.phase = .live [] ∧ ∃ d pc, l' = .drop d pc ∧ d.handle = k) ∨
      ∃ d pc, l = .drop d pc ∧ d.handle = k := by
  have hsame : s'.handles = s.handles → ∃ v', s'.handles[k]? = some v' ∧ Borrowed u v v' :=
    fun heq => ⟨v, by rw [heq, hv], Or.inl rfl⟩
  cases hm with
  | asked ha =>
    cases ha with
    | call => exact Or.inl (exists_modifyHandle _ hv (borrowed_borrow u v))
    | make => exact Or.inl (exists_modifyHandle _ hv (borrowed_borrow u v))
    | @drop h w hw _ hlive =>
      by_cases hk : h = k
      · subst hk
        cases hw.symm.trans hv
        exact Or.inr (Or.inl ⟨rfl, hlive, _, _, rfl, rfl⟩)
      · exact Or.inl ⟨v, by rw [Shared.setPhase, Shared.getElem?_modifyHandle_of_ne _ hk, hv],
          Or.inl rfl⟩
    | @destroy h w hw _ hlive =>
      by_cases hk : h = k
      · subst hk
        cases hw.symm.trans hv
        exact Or.inr (Or.inl ⟨rfl, hlive, _, _, rfl, rfl⟩)
      · exact Or.inl ⟨v, by rw [Shared.getElem?_modifyHandle_of_ne _ hk, hv], Or.inl rfl⟩
    | fork => exact Or.inl ⟨v, getElem?_append_of_some hv, Or.inl rfl⟩
  | op hgoes => exact Or.inl (hsame (op_handles hgoes).1)
  | ret => exact Or.inl (exists_modifyHandle _ hv (borrowed_giveBack u v))
  | make hmake =>
    cases hmake with
    | panic => exact Or.inl (exists_modifyHandle (s := s.setRefs _ _) _ hv (borrowed_giveBack u v))
    | create =>
      obtain ⟨v', hv', hborrowed⟩ :=
        exists_modifyHandle (h := _) (Handle.giveBack u) hv (borrowed_giveBack u v)
      exact Or.inl ⟨v', getElem?_append_of_some hv', hborrowed⟩
    | _ => exact Or.inl (hsame rfl)
  | @drop d pc _ _ _ hd =>
    by_cases hk : d.handle = k
    · exact Or.inr (Or.inr ⟨d, pc, rfl, hk⟩)
    · exact Or.inl ⟨v, by rw [hd.handle_of_ne hk, hv], Or.inl rfl⟩

namespace Handle

/-- A handle in use is live. -/
theorem isLive_of_phase {users : List Tid} (hv : v.phase = .live users) : v.isLive = true := by
  simp [isLive, hv]

theorem not_live_of_gone (hv : v.phase = .gone) : v.isLive = false := by
  simp [isLive, hv]

end Handle

/-! ## What a thread knows about its handle -/

namespace Kind

/-- The counter of the values of this kind. -/
def ofSide : Side → Kind
  | .item => .sender
  | .space => .receiver

end Kind

/-- The state of the value at a point of its drop. -/
def DropPc.Closes (t : Tid) (v : Handle) : DropPc → Prop
  | .load side => v.kind = .ofSide side ∧ v.phase = .closing
  | .exchange side counter => v.kind = .ofSide side ∧ v.phase = .closing ∧ counter ≠ 0
  | .broadcast _ _ => v.phase = .released
  | .checkPid => v.kind = .channel ∧ v.phase = .closing ∨ v.phase = .released
  | _ => v.originalPid = t.pid ∧ (v.kind = .channel ∧ v.phase = .closing ∨ v.phase = .released)

/-- The handle that a thread is using, or dropping. -/
def Owns (t : Tid) : Pc α → Shared α → Prop
  | .idle, _ => True
  | .op h op _, s => ∃ v users, s.handles[h]? = some v ∧ v.proc = t.pid ∧ v.kind = op.kind ∧
      v.phase = .live users ∧ t ∈ users
  | .make m _, s => ∃ v users, s.handles[m.source]? = some v ∧ v.proc = t.pid ∧
      v.originalPid = m.originalPid ∧ v.phase = .live users ∧ t ∈ users
  | .drop d pc, s => ∃ v, s.handles[d.handle]? = some v ∧ v.proc = t.pid ∧
      v.originalPid = d.originalPid ∧ pc.Closes t v

/-- Two threads drop the same value. -/
def SameHandle (l l' : Pc α) : Prop :=
  ∃ d pc d' pc', l = .drop d pc ∧ l' = .drop d' pc' ∧ d.handle = d'.handle

/-- The processes of a handle are numbered below `n`. -/
def Handle.Known (n : ℕ) (v : Handle) : Prop := v.proc < n ∧ v.creator < n ∧ v.originalPid < n

/-- Processes are numbered below `nextPid`, and the threads use the handles that they own. -/
def ownershipOutline : Outline (Shared α) Tid (Pc α) where
  global s := ∀ v ∈ s.handles, v.Known s.nextPid
  running := Owns
  asleep t l s := (∃ h op pc, l = .op h op pc) ∧ Owns t l s

/-- A handle in use stays in use. -/
theorem Borrowed.live {users : List Tid} (hb : Borrowed u v v') (hne : u ≠ t)
    (hv : v.phase = .live users) (ht : t ∈ users) :
    v'.kind = v.kind ∧ v'.proc = v.proc ∧ v'.originalPid = v.originalPid ∧
      ∃ users', v'.phase = .live users' ∧ t ∈ users' := by
  rcases hb with rfl | ⟨users', hv', rfl | rfl⟩
  · exact ⟨rfl, rfl, rfl, users, hv, ht⟩
  · cases hv.symm.trans hv'
    exact ⟨rfl, rfl, rfl, _, rfl, List.mem_cons_of_mem _ ht⟩
  · cases hv.symm.trans hv'
    exact ⟨rfl, rfl, rfl, _, rfl, (List.mem_erase_of_ne (Ne.symm hne)).mpr ht⟩

/-- A handle that is not live is not in use. -/
theorem Borrowed.eq (hb : Borrowed u v v') (hv : v.isLive = false) : v' = v := by
  rcases hb with rfl | ⟨users, hphase, -⟩
  · rfl
  · rw [Handle.isLive_of_phase hphase] at hv
    cases hv

theorem DropPc.Closes.not_live {pc : DropPc} (h : pc.Closes t v) : v.isLive = false := by
  cases pc <;> simp only [DropPc.Closes] at h <;> grind [Handle.isLive]

/-- Nobody uses a value that is being dropped. -/
theorem DropPc.Closes.ne_live {pc : DropPc} (h : pc.Closes t v) (users : List Tid) :
    v.phase ≠ .live users := by
  intro hlive
  have hdead := h.not_live
  rw [Handle.isLive_of_phase hlive] at hdead
  cases hdead

theorem DropPc.Closes.not_gone {pc : DropPc} (h : pc.Closes t v) : v.phase ≠ .gone := by
  cases pc <;> simp only [DropPc.Closes] at h <;> grind

theorem borrow_of_live {users : List Tid} (hv : v.phase = .live users) :
    v.borrow t = { v with phase := .live (t :: users) } := by
  simp [Handle.borrow, hv]

theorem exists_users (hv : v.isLive = true) : ∃ users, v.phase = .live users := by
  unfold Handle.isLive at hv
  split at hv
  · next users hphase => exact ⟨users, hphase⟩
  · cases hv

theorem Borrowed.known {n : ℕ} (hb : Borrowed u v v') (hv : v.Known n) : v'.Known n := by
  rcases hb with rfl | ⟨users, -, rfl | rfl⟩ <;> exact hv

/-! ## One move -/

/-- A client's request that it is granted makes it the owner of what it will use. -/
theorem Asked.owns {input : Input α} (ha : Asked t s input s' l') : Owns t l' s' := by
  cases ha with
  | @call h op v hv hkind hproc _ hlive =>
    obtain ⟨users, hphase⟩ := exists_users hlive
    refine ⟨_, t :: users, Shared.getElem?_modifyHandle_self (Handle.borrow t) hv, ?_⟩
    rw [borrow_of_live hphase]
    exact ⟨hproc, hkind, rfl, List.mem_cons_self⟩
  | @make h kind v hv hproc hlive _ =>
    obtain ⟨users, hphase⟩ := exists_users hlive
    refine ⟨_, t :: users, Shared.getElem?_modifyHandle_self (Handle.borrow t) hv, ?_⟩
    rw [borrow_of_live hphase]
    exact ⟨hproc, rfl, rfl, List.mem_cons_self⟩
  | @drop h v hv hproc _ =>
    refine ⟨_, Shared.getElem?_modifyHandle_self _ hv, hproc, rfl, ?_⟩
    cases hkind : v.kind with
    | channel => exact Or.inl ⟨rfl, rfl⟩
    | sender => exact ⟨rfl, rfl⟩
    | receiver => exact ⟨rfl, rfl⟩
  | @destroy h v hv hproc _ hkind =>
    exact ⟨_, Shared.getElem?_modifyHandle_self _ hv, hproc, rfl, Or.inl ⟨hkind, rfl⟩⟩
  | fork => trivial

/-- A drop goes on with its value in the state that its next point needs. -/
theorem DropMoves.owns {d : Dropping} {pc : DropPc} (hd : DropMoves t d pc s l' s')
    (hl : Owns t (.drop d pc : Pc α) s) : Owns t l' s' := by
  obtain ⟨v, hv, hproc, horiginal, hcloses⟩ := hl
  have hreleased : ∀ s₀ : Shared α, s₀.handles = s.handles →
      (s₀.setPhase d.handle .released).handles[d.handle]? =
        some { v with phase := .released } := by
    intro s₀ heq
    exact Shared.getElem?_modifyHandle_self _ (heq ▸ hv)
  cases hd with
  | loadZero => exact ⟨_, hreleased s rfl, hproc, horiginal, rfl⟩
  | load hpos => exact ⟨v, hv, hproc, horiginal, hcloses.1, hcloses.2, hpos⟩
  | reachZero => exact ⟨_, hreleased _ rfl, hproc, horiginal, rfl⟩
  | subtract => exact ⟨_, hreleased _ rfl, hproc, horiginal, Or.inr rfl⟩
  | exchangeZero => exact ⟨_, hreleased s rfl, hproc, horiginal, rfl⟩
  | retry hpos => exact ⟨v, hv, hproc, horiginal, hcloses.1, hcloses.2.1, hpos⟩
  | broadcast => exact ⟨v, hv, hproc, horiginal, Or.inr hcloses⟩
  | foreign => trivial
  | owner hpid => exact ⟨v, hv, hproc, horiginal, horiginal.trans hpid, hcloses⟩
  | moveAlong => trivial
  | freeReferences => trivial
  | swapSenders hpc => rcases hpc with rfl | rfl | rfl <;> exact ⟨v, hv, hproc, horiginal, hcloses⟩
  | broadcastItem hpc => rcases hpc with rfl | rfl <;> exact ⟨v, hv, hproc, horiginal, hcloses⟩
  | lock hpc => rcases hpc with rfl | rfl <;> exact ⟨v, hv, hproc, horiginal, hcloses⟩
  | destroyMutex hpc => rcases hpc with rfl | rfl <;> exact ⟨v, hv, hproc, horiginal, hcloses⟩
  | @destroyCondvar side _ _ hpc =>
    subst hpc
    cases side <;> exact ⟨v, hv, hproc, horiginal, hcloses⟩
  | _ => exact ⟨v, hv, hproc, horiginal, hcloses⟩

/-- A thread that moves owns what it goes on to use. -/
theorem Moves.owns (hm : Moves grow t l s l' s') (hl : Owns t l s) : Owns t l' s' := by
  cases hm with
  | asked ha => exact ha.owns
  | op hgoes =>
    obtain ⟨v, users, hv, hrest⟩ := hl
    exact ⟨v, users, by rw [(op_handles hgoes).1, hv], hrest⟩
  | ret => trivial
  | make hmake =>
    cases hmake with
    | panic => trivial
    | create => trivial
    | _ => exact hl
  | drop hd => exact hd.owns hl

/-! ## All handles -/

theorem Shared.mem_modifyHandle {f : Handle → Handle}
    (hv : v' ∈ (s.modifyHandle k f).handles) :
    v' ∈ s.handles ∨ ∃ v ∈ s.handles, s.handles[k]? = some v ∧ v' = f v := by
  obtain ⟨j, hj⟩ := List.mem_iff_getElem?.mp hv
  by_cases hk : k = j
  · subst hk
    simp only [Shared.modifyHandle, List.getElem?_modify_eq, Option.map_eq_map,
      Option.map_eq_some_iff] at hj
    obtain ⟨v, hv₀, rfl⟩ := hj
    exact Or.inr ⟨v, List.mem_of_getElem? hv₀, hv₀, rfl⟩
  · rw [Shared.getElem?_modifyHandle_of_ne f hk] at hj
    exact Or.inl (List.mem_of_getElem? hj)

theorem forall_modifyHandle {p : Handle → Prop} {f : Handle → Handle}
    (h : ∀ v ∈ s.handles, p v) (hf : ∀ v, s.handles[k]? = some v → p v → p (f v)) :
    ∀ v ∈ (s.modifyHandle k f).handles, p v := by
  intro v' hv'
  rcases Shared.mem_modifyHandle hv' with hv | ⟨v, hv, hk, rfl⟩
  · exact h v' hv
  · exact hf v hk (h v hv)

/-- Processes stay known. -/
theorem Moves.known (hm : Moves grow t l s l' s') (hl : Owns t l s)
    (h : ∀ v ∈ s.handles, v.Known s.nextPid) : ∀ v ∈ s'.handles, v.Known s'.nextPid := by
  have hborrow : ∀ k, ∀ v ∈ (s.modifyHandle k (Handle.borrow t)).handles, v.Known s.nextPid :=
    fun k => forall_modifyHandle h fun v _ hv => (borrowed_borrow t v).known hv
  have hgiveBack : ∀ k, ∀ v ∈ (s.endBorrow t k).handles, v.Known s.nextPid :=
    fun k => forall_modifyHandle h fun v _ hv => (borrowed_giveBack t v).known hv
  have hphase : ∀ k phase, ∀ v ∈ (s.setPhase k phase).handles, v.Known s.nextPid :=
    fun k phase => forall_modifyHandle h fun v _ hv => hv
  cases hm with
  | asked ha =>
    cases ha with
    | call => exact hborrow _
    | make => exact hborrow _
    | drop => exact hphase _ _
    | @destroy k v hv hproc =>
      refine forall_modifyHandle h fun w hw hknown => ⟨hknown.1, hknown.2.1, ?_⟩
      cases hw.symm.trans hv
      exact hproc ▸ hknown.1
    | fork hpid =>
      intro v hv
      rcases List.mem_append.mp hv with hold | hnew
      · obtain ⟨hproc, hcreator, horiginal⟩ := h v hold
        exact ⟨Nat.lt_succ_of_lt hproc, Nat.lt_succ_of_lt hcreator, Nat.lt_succ_of_lt horiginal⟩
      · -- a copy: its process is the new one, and the rest is inherited
        obtain ⟨w, hw, rfl⟩ := List.mem_map.mp hnew
        obtain ⟨-, hcreator, horiginal⟩ := h w (List.mem_filter.mp hw).1
        exact ⟨Nat.lt_succ_self _, Nat.lt_succ_of_lt hcreator, Nat.lt_succ_of_lt horiginal⟩
  | op hgoes =>
    rw [(op_handles hgoes).1, (op_handles hgoes).2]
    exact h
  | ret => exact hgiveBack _
  | @make m pc _ _ _ hmake =>
    cases hmake with
    | panic => exact hgiveBack m.source
    | create =>
      intro v hv
      rcases List.mem_append.mp hv with hold | hnew
      · exact hgiveBack _ v hold
      · obtain ⟨w, users, hw, hproc, horiginal, -⟩ := hl
        obtain ⟨hp, -, ho⟩ := h w (List.mem_of_getElem? hw)
        rw [List.mem_singleton.mp hnew]
        exact ⟨hproc ▸ hp, hproc ▸ hp, horiginal ▸ ho⟩
    | _ => exact h
  | @drop d pc _ _ _ hd =>
    cases hd with
    | loadZero => exact hphase _ _
    | reachZero => exact hphase _ _
    | subtract => exact hphase _ _
    | exchangeZero => exact hphase _ _
    | foreign => exact hphase _ _
    | moveAlong => exact hphase _ _
    | freeReferences => exact hphase _ _
    | _ => exact h

/-- A move of another thread takes nothing away from a thread that owns a handle. -/
theorem Owns.frame (h : Owns t l s) (hmover : Owns u l' s) {k : Pc α} (hne : u ≠ t)
    (hm : Moves grow u l' s k s') (hapart : ¬ SameHandle l l') : Owns t l s' := by
  -- a handle that is borrowed stays so: nobody drops it, as it has a user
  have hlive : ∀ {j : ℕ} {v : Handle} {users : List Tid}, s.handles[j]? = some v →
      v.phase = .live users → t ∈ users → ∃ v' users', s'.handles[j]? = some v' ∧
        v'.kind = v.kind ∧ v'.proc = v.proc ∧ v'.originalPid = v.originalPid ∧
        v'.phase = .live users' ∧ t ∈ users' := by
    intro j v users hv hphase hmem
    rcases hm.handle hv with ⟨v', hv', hborrowed⟩ | ⟨-, hnil, -⟩ | ⟨d, pc, rfl, rfl⟩
    · obtain ⟨hkind, hproc, horiginal, users', hphase', hmem'⟩ := hborrowed.live hne hphase hmem
      exact ⟨v', users', hv', hkind, hproc, horiginal, hphase', hmem'⟩
    · cases hphase.symm.trans hnil
      cases hmem
    · obtain ⟨w, hw, -, -, hcloses⟩ := hmover
      cases hw.symm.trans hv
      exact absurd hphase (hcloses.ne_live users)
  cases l with
  | idle => trivial
  | op j op pc =>
    obtain ⟨v, users, hv, hproc, hkind, hphase, hmem⟩ := h
    obtain ⟨v', users', hv', hkind', hproc', -, hphase', hmem'⟩ := hlive hv hphase hmem
    exact ⟨v', users', hv', hproc'.trans hproc, hkind'.trans hkind, hphase', hmem'⟩
  | make m pc =>
    obtain ⟨v, users, hv, hproc, horiginal, hphase, hmem⟩ := h
    obtain ⟨v', users', hv', -, hproc', horiginal', hphase', hmem'⟩ := hlive hv hphase hmem
    exact ⟨v', users', hv', hproc'.trans hproc, horiginal'.trans horiginal, hphase', hmem'⟩
  | drop d pc =>
    obtain ⟨v, hv, hproc, horiginal, hcloses⟩ := h
    rcases hm.handle hv with ⟨v', hv', hborrowed⟩ | ⟨-, hnil, -⟩ | ⟨d', pc', rfl, heq⟩
    · -- nobody borrows what is being dropped, and only its own thread moves it on
      rw [hborrowed.eq hcloses.not_live] at hv'
      exact ⟨v, hv', hproc, horiginal, hcloses⟩
    · exact absurd hnil (hcloses.ne_live [])
    · exact absurd ⟨d, pc, d', pc', rfl, rfl, heq.symm⟩ hapart

theorem ownershipOutline_valid :
    (ownershipOutline (α := α)).Valid (program grow) SameHandle fun _ _ _ => True where
  own {t l s} hglobal hl _ := by
    refine program_establishes (fun l' s' hm => ⟨hm.known hl hglobal, hm.owns hl⟩) ?_
    rintro h op late rfl
    exact ⟨⟨h, op, _, rfl⟩, hl⟩
  wake _ hasleep := hasleep.2
  frame hne _ hmover _ hgoes hapart hl := hl.frame hmover hne (moves_of_goes hgoes) hapart
  frameAsleep hne _ hmover _ hgoes hasleep := by
    obtain ⟨⟨h, op, pc, rfl⟩, hl⟩ := hasleep
    refine ⟨⟨h, op, pc, rfl⟩, hl.frame hmover hne (moves_of_goes hgoes) ?_⟩
    rintro ⟨d, pc, d', pc', heq, -⟩
    cases heq

/-! ## Runs -/

/-- What every run keeps: the threads own what they use, and drop different values. -/
structure Owned (c : State α) : Prop where
  sound : Sound c
  holds : ownershipOutline.Holds c
  distinct : Apart SameHandle c

/-- A thread that is dropping a value was doing so before the step, or begins with a value that
nobody uses. -/
theorem drop_before (h : ownershipOutline.Holds c) (hstep : Step (program grow) c i c')
    {d : Dropping} {pc : DropPc} (ht : c'.threads t = .running (.drop d pc)) :
    (∃ pc₀, c.threads t = .running (.drop d pc₀)) ∨
      t = i.mover ∧ ∃ v, c.shared.handles[d.handle]? = some v ∧ v.phase = .live [] := by
  have hasleep : ∀ {l : Pc α}, ownershipOutline.asleep t l c.shared → l ≠ .drop d pc := by
    rintro l ⟨⟨k, op, opc, rfl⟩, -⟩ heq
    cases heq
  by_cases htm : t = i.mover
  · rcases hstep.arrives ht with hsame | ⟨l, hl, hleads⟩ | ⟨cv, late, hb⟩ | hw
    · exact Or.inl ⟨pc, hsame⟩
    · obtain ⟨s', hgoes⟩ := hleads.goes
      cases moves_of_goes hgoes with
      | asked ha =>
        cases ha with
        | drop hv _ hlive => exact Or.inr ⟨htm, _, hv, hlive⟩
        | destroy hv _ hlive => exact Or.inr ⟨htm, _, hv, hlive⟩
      | make hm => cases hm
      | @drop d' pc₀ _ _ _ hd =>
        exact Or.inl ⟨pc₀, hd.dropping_eq ▸ hl⟩
    · have hat := h.at_ t
      rw [hb] at hat
      exact absurd rfl (hasleep hat.1)
    · have hat := h.at_ t
      rw [hw] at hat
      exact absurd rfl (hasleep hat)
  · rw [hstep.others htm] at ht
    exact Or.inl ⟨pc, ht⟩

/-- A thread that wakes up, or stops waiting, is inside an operation. -/
theorem op_of_still (h : ownershipOutline.Holds c) (hstep : Step (program grow) c i c')
    (hwait : ∀ l, c.threads i.mover = .running l →
      ∃ cv next late, program grow i.mover l = .wait cv next late)
    (ht' : c'.threads i.mover = .running l') : ∃ k op pc, l' = .op k op pc := by
  have hat := h.at_ i.mover
  rcases hstep.arrives ht' with hsame | ⟨l, hl, hleads⟩ | ⟨cv, late, hb⟩ | hw
  · obtain ⟨cv, next, late, heq⟩ := hwait l' hsame
    exact op_of_wait heq
  · -- a wait leads nowhere at once
    obtain ⟨cv, next, late, heq⟩ := hwait l hl
    rw [heq] at hleads
    exact absurd hleads id
  · rw [hb] at hat
    exact hat.1.1
  · rw [hw] at hat
    exact hat.1

theorem Owned.step (h : Owned c) (hstep : Step (program grow) c i c') : Owned c' := by
  refine ⟨h.sound.step hstep,
    h.holds.step ownershipOutline_valid h.distinct (fun _ _ => trivial) hstep, ?_⟩
  -- a value that is being dropped is not one that a drop can begin with
  have hnot : ∀ {v : Tid} {d d' : Dropping} {pc : DropPc} {w : Handle},
      c.threads v = .running (.drop d pc) → d.handle = d'.handle →
        c.shared.handles[d'.handle]? = some w → w.phase ≠ .live [] := by
    intro v d d' pc w hv heq hw hlive
    obtain ⟨w', hw', -, -, hcloses⟩ := h.holds.running hv
    rw [heq] at hw'
    cases hw'.symm.trans hw
    exact hcloses.ne_live [] hlive
  rintro t u l l' hne ht hu ⟨d, pc, d', pc', rfl, rfl, heq⟩
  rcases drop_before h.holds hstep ht with ⟨pc₀, ht₀⟩ | ⟨htm, w, hw, hlive⟩
  · rcases drop_before h.holds hstep hu with ⟨pc₁, hu₁⟩ | ⟨-, w, hw, hlive⟩
    · exact h.distinct hne ht₀ hu₁ ⟨d, pc₀, d', pc₁, rfl, rfl, heq⟩
    · exact hnot ht₀ heq hw hlive
  · rcases drop_before h.holds hstep hu with ⟨pc₁, hu₁⟩ | ⟨hum, -⟩
    · exact hnot hu₁ heq.symm hw hlive
    · exact hne (hum.trans htm.symm)

theorem owned_initial (capacity : ℕ) : Owned (initial (α := α) capacity) where
  sound := sound_initial capacity
  holds := by
    refine ⟨fun v hv => ?_, fun t => trivial⟩
    rw [List.mem_singleton.mp hv]
    exact ⟨Nat.one_pos, Nat.one_pos, Nat.one_pos⟩
  distinct := by
    rintro t u l l' - ht - ⟨d, pc, d', pc', rfl, -⟩
    cases ht

theorem owned_of_run (hrun : Run (Step (program grow)) (initial capacity) tr c) :
    Everywhere Owned tr c :=
  hrun.everywhere' (owned_initial capacity) fun h hstep => h.step hstep

end ShmemUtils.Channel
