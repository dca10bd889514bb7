import ShmemUtils.Channel.Operations

/-!
# The teardown and the operations

Whoever tears the channel down has set `dropping` first, and drops the queue only after finding the
mutex unused. So no operation that reads `dropping` under the mutex can be about to move an item
when the queue is dropped.
-/

namespace ShmemUtils.Channel

open ShmemUtils.Library ShmemUtils.Library.Monitor

variable {α : Type} {grow : ℕ → Option ℕ} {t u : Tid} {l l' : Pc α} {s s' : Shared α}

namespace DropPc

/-- After the store to `dropping`. -/
def tearingDown : DropPc → Bool
  | .swapReceivers => true
  | .swapSenders _ => true
  | .broadcastItem _ => true
  | .broadcastSpace => true
  | .lock => true
  | .unlock => true
  | .checkCreator => true
  | .destroyMutex => true
  | .dropQueue => true
  | .destroyCondvar _ => true
  | .freeInner => true
  | .freeReferences => true
  | _ => false

end DropPc

/-! ## The teardown has set `dropping` -/

/-- During a teardown, and when something was freed, `dropping` is set; and every sleeper will
evaluate its predicate. -/
def teardownOutline : Outline (Shared α) Tid (Pc α) where
  global s := s.queueFrees ≠ 0 ∨ s.innerFrees ≠ 0 → s.inner.dropping = true
  running _ l s := ∀ d pc, l = .drop d pc → pc.tearingDown = true → s.inner.dropping = true
  asleep _ l _ := ∃ h op late, l = .op h op (.testQueue late)

/-- A drop enters the teardown through the store to `dropping`. -/
theorem DropMoves.tearingDown {d d' : Dropping} {pc pc' : DropPc}
    (h : DropMoves t d pc s (.drop d' pc') s') (htear : pc'.tearingDown = true) :
    pc = .storeDropping ∨ pc.tearingDown = true := by
  cases h with
  | storeDropping => exact Or.inl rfl
  | loadZero => cases htear
  | load => cases htear
  | reachZero => cases htear
  | subtract => cases htear
  | exchangeZero => cases htear
  | retry => cases htear
  | broadcast => cases htear
  | owner => cases htear
  | samePid => cases htear
  | otherPid => cases htear
  | last => cases htear
  | _ => exact Or.inr rfl

/-- What a move leads to keeps the assertion about teardowns. -/
theorem Moves.teardown (h : Moves grow t l s l' s') (hl : teardownOutline.running t l s) :
    teardownOutline.running t l' s' := by
  rintro d pc rfl htear
  cases h with
  | asked ha => rcases ha.drop_pc with rfl | ⟨side, rfl⟩ <;> cases htear
  | make hm => cases hm
  | drop hd =>
    rcases hd.tearingDown htear with rfl | hbefore
    · cases hd
      rfl
    · have hmove : Moves grow t (.drop _ _) s (.drop d pc) s' := .drop hd
      exact hmove.dropping_mono (hl _ _ rfl hbefore)

theorem Moves.freed (h : Moves grow t l s l' s') (hl : teardownOutline.running t l s)
    (hs : teardownOutline.global s) : teardownOutline.global s' := by
  intro hfrees
  apply h.dropping_mono
  rcases h.frees with ⟨hqueue, hinner⟩ | ⟨d, rfl | rfl⟩
  · rw [hqueue, hinner] at hfrees
    exact hs hfrees
  · exact hl d _ rfl rfl
  · exact hl d _ rfl rfl

theorem teardownOutline_valid (apart : Pc α → Pc α → Prop) :
    (teardownOutline (α := α)).Valid (program grow) apart fun _ _ _ => True where
  own {t l s} hs hl _ :=
    program_establishes (fun l' s' hm => ⟨hm.freed hl hs, hm.teardown hl⟩)
      fun h op late _ => ⟨h, op, late, rfl⟩
  wake _ hasleep := by
    obtain ⟨h, op, late, rfl⟩ := hasleep
    intro d pc heq
    cases heq
  frame _ _ _ _ hgoes _ hl := fun d pc heq htear =>
    (moves_of_goes hgoes).dropping_mono (hl d pc heq htear)
  frameAsleep _ _ _ _ _ hasleep := hasleep

/-! ## Who destroys the mutex and the condition variables -/

/-- In the drop of the mutex or of a condition variable, in the process that made them. -/
def DropPc.destroys : DropPc → Bool
  | .destroyMutex => true
  | .dropQueue => true
  | .destroyCondvar _ => true
  | _ => false

/-- Process 0 has made the mutex and the condition variables, and only its threads destroy them. -/
def creatorOutline : Outline (Shared α) Tid (Pc α) where
  global s := s.inner.creatorPid = 0
  running t l _ := ∀ d pc, l = .drop d pc → pc.destroys = true → t.pid = 0
  asleep _ l _ := ∃ h op late, l = .op h op (.testQueue late)

theorem DropMoves.destroys {d d' : Dropping} {pc pc' : DropPc}
    (h : DropMoves t d pc s (.drop d' pc') s') (hpc' : pc'.destroys = true) :
    pc.destroys = true ∨ s.inner.creatorPid = t.pid := by
  cases h with
  | sameCreator hpid => exact Or.inr hpid
  | destroyMutex => exact Or.inl rfl
  | dropQueue => exact Or.inl rfl
  | destroyCondvar => exact Or.inl rfl
  | swapSenders hnext => rcases hnext with rfl | rfl | rfl <;> cases hpc'
  | broadcastItem hnext => rcases hnext with rfl | rfl <;> cases hpc'
  | lock hnext => rcases hnext with rfl | rfl <;> cases hpc'
  | _ => cases hpc'

theorem Moves.creator (h : Moves grow t l s l' s') (hl : creatorOutline.running t l s)
    (hs : creatorOutline.global s) : creatorOutline.running t l' s' := by
  rintro d pc rfl hdestroys
  cases h with
  | asked ha => rcases ha.drop_pc with rfl | ⟨side, rfl⟩ <;> cases hdestroys
  | make hm => cases hm
  | drop hd =>
    rcases hd.destroys hdestroys with hbefore | hpid
    · exact hl _ _ rfl hbefore
    · exact hpid.symm.trans hs

theorem creatorOutline_valid (apart : Pc α → Pc α → Prop) :
    (creatorOutline (α := α)).Valid (program grow) apart fun _ _ _ => True where
  own {t l s} hs hl _ :=
    program_establishes (fun l' s' hm => ⟨hm.creatorPid.trans hs, hm.creator hl hs⟩)
      fun h op late _ => ⟨h, op, late, rfl⟩
  wake _ hasleep := by
    obtain ⟨h, op, late, rfl⟩ := hasleep
    intro d pc heq
    cases heq
  frame _ _ _ _ _ _ hl := hl
  frameAsleep _ _ _ _ _ hasleep := hasleep

/-! ## Points that are never occupied together -/

/-- Two threads in their critical sections, or one that is about to move an item after reading
`dropping` and one that is about to drop the queue. -/
def NeverTogether (l l' : Pc α) : Prop :=
  l.holding = true ∧ l'.holding = true ∨
    ∃ h op d, op.rereads = true ∧ l = .op h op .transfer ∧ l' = .drop d .dropQueue

/-- What every run of the program keeps. -/
structure Sound (c : State α) : Prop where
  exclusive : Exclusive Pc.holding c
  counted : Counted c
  teardown : teardownOutline.Holds c
  creator : creatorOutline.Holds c
  apart : Apart NeverTogether c

/-- An operation that reads again goes to its transfer from the read of `dropping`. -/
theorem readDropping_of_goes {op : Op α} {pc : OpPc α} (hop : op.rereads = true)
    (hgoes : (op.action grow t pc).Goes s .transfer s') :
    pc = .readDropping ∧ s.inner.dropping = false := by
  cases op with
  | tryReceiveUntil =>
    cases pc <;>
      simp_all [Op.action, Inner.tryReceiveUntil, Condvar.waitUntil, Condvar.isReady, goes_read,
        goes_pop, eq_ite_iff]
  | trySend item =>
    cases pc <;>
      simp_all [Op.action, Inner.trySend, Condvar.wait, Condvar.isReady, goes_read, goes_push,
        eq_ite_iff]
  | trySendUntil item =>
    cases pc <;>
      simp_all [Op.action, Inner.trySendUntil, Condvar.waitUntil, Condvar.isReady, goes_read,
        goes_push, eq_ite_iff]
  | _ => cases hop

/-- The item is moved after `dropping` was read as unset, with the mutex held. -/
theorem transfer_of_leads {h : ℕ} {op : Op α} (hop : op.rereads = true) {free : Bool}
    (hleads : (program grow t l).Leads s free (.op h op .transfer)) :
    l.holding = true ∧ s.inner.dropping = false := by
  obtain ⟨s', hgoes⟩ := hleads.goes
  cases moves_of_goes hgoes with
  | asked ha => cases ha
  | op hgoes' =>
    obtain ⟨rfl, hd⟩ := readDropping_of_goes hop hgoes'
    exact ⟨rfl, hd⟩
  | make hm => cases hm
  | drop hd => cases hd

/-- The queue is dropped after the mutex was found unused. -/
theorem dropQueue_of_leads {d : Dropping} {free : Bool}
    (hleads : (program grow t l).Leads s free (.drop d .dropQueue)) : free = true := by
  obtain ⟨s', hgoes⟩ := hleads.goes
  cases moves_of_goes hgoes with
  | asked ha => rcases ha.drop_pc with hpc | ⟨side, hpc⟩ <;> cases hpc
  | make hm => cases hm
  | drop hd =>
    cases hd with
    | destroyMutex =>
      cases free with
      | true => rfl
      | false => cases hleads
    | swapSenders hpc => rcases hpc with hpc | hpc | hpc <;> cases hpc
    | broadcastItem hpc => rcases hpc with hpc | hpc <;> cases hpc
    | lock hpc => rcases hpc with hpc | hpc <;> cases hpc
    | @destroyCondvar side _ _ hpc => cases side <;> cases hpc

theorem Sound.step {c c' : State α} {i : Event α} (h : Sound c)
    (hstep : Step (program grow) c i c') : Sound c' := by
  have hexcl := h.exclusive.step (disciplined grow) hstep
  have htear : teardownOutline.Holds c' :=
    h.teardown.step (teardownOutline_valid NeverTogether) h.apart (fun _ _ => trivial) hstep
  have hcreator : creatorOutline.Holds c' :=
    h.creator.step (creatorOutline_valid NeverTogether) h.apart (fun _ _ => trivial) hstep
  refine ⟨hexcl, h.counted.step hstep, htear, hcreator, ?_⟩
  rintro t u l l' hne ht hu (hboth | ⟨k, op, d, hop, rfl, rfl⟩)
  · exact hexcl.apart hne ht hu hboth
  -- a sleeper wakes up at neither point
  have hawake : ∀ {v : Tid} {l : Pc α}, (∀ h op late, l ≠ .op h op (.testQueue late)) →
      c'.threads v = .running l → c.threads v = .running l ∨
        ∃ l₀, c.threads v = .running l₀ ∧
          (program grow v l₀).Leads c.shared c.unused l := by
    intro v l hl hv
    rcases hstep.arrives hv with hsame | hown | ⟨cv, late, hb⟩ | hw
    · exact Or.inl hsame
    · exact Or.inr hown
    · have hat := h.teardown.at_ v
      rw [hb] at hat
      obtain ⟨h', op', late', heq⟩ := hat.1
      exact absurd heq (hl h' op' late')
    · have hat := h.teardown.at_ v
      rw [hw] at hat
      obtain ⟨h', op', late', heq⟩ := hat
      exact absurd heq (hl h' op' late')
  -- whoever is about to move the item held the mutex before the step
  have hheld : ∃ l₀, c.threads t = .running l₀ ∧ l₀.holding = true := by
    rcases hawake (fun _ _ _ heq => by cases heq) ht with ht₀ | ⟨l₀, ht₀, hleads⟩
    · exact ⟨_, ht₀, rfl⟩
    · exact ⟨l₀, ht₀, (transfer_of_leads hop hleads).1⟩
  rcases hawake (fun _ _ _ heq => by cases heq) hu with hu₀ | ⟨l₁, hu₀, hleads⟩
  · rcases hawake (fun _ _ _ heq => by cases heq) ht with ht₀ | ⟨l₀, ht₀, hleads⟩
    · exact h.apart hne ht₀ hu₀ (Or.inr ⟨k, op, d, hop, rfl, rfl⟩)
    · -- the teardown had set `dropping`
      have hd := h.teardown.running hu₀ d .dropQueue rfl rfl
      rw [(transfer_of_leads hop hleads).2] at hd
      cases hd
  · -- the mutex was free, so nobody was about to move an item
    obtain ⟨l₀, ht₀, hl₀⟩ := hheld
    have hfree := (Config.unused_iff.mp (dropQueue_of_leads hleads)).1
    rw [(h.exclusive.of_running ht₀).1.mpr hl₀] at hfree
    cases hfree

/-- The initial state is sound. -/
theorem sound_initial (capacity : ℕ) : Sound (initial (α := α) capacity) where
  exclusive t := by
    refine ⟨⟨?_, ?_⟩, ?_⟩
    · intro h
      cases h
    · intro h
      cases h
    · intro cv h
      cases h
  counted t := by
    refine iff_of_false (fun h => by cases h) fun h => ?_
    exact h .idle rfl
  teardown := ⟨fun h => absurd rfl (h.elim id id), fun t d pc h => by cases h⟩
  creator := ⟨rfl, fun t d pc h => by cases h⟩
  apart := by
    rintro t u l l' - ht hu (⟨hl, -⟩ | ⟨h, op, d, -, rfl, -⟩)
    · cases ht
      cases hl
    · cases ht

theorem sound_of_run {capacity : ℕ} {tr : Trace α} {c : State α}
    (hrun : Run (Step (program grow)) (initial capacity) tr c) : Sound c :=
  hrun.invariant' (sound_initial capacity) fun h hstep => h.step hstep

end ShmemUtils.Channel
