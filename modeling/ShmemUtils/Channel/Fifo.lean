import ShmemUtils.Channel.Receives

/-!
# First in, first out

The history records which call pushed and popped what. In every run the pushed items are the popped
ones followed by the queue, until the queue is dropped; and what a call returns tells exactly what
it has pushed and popped.
-/

namespace ShmemUtils.Channel

open ShmemUtils.Library ShmemUtils.Library.Monitor

variable {α : Type} {grow : ℕ → Option ℕ} {t u : Tid} {l l' : Pc α} {s s' : Shared α}
  {capacity : ℕ} {c c' : State α} {i : Event α} {tr : Trace α}

/-! ## What a result tells -/

namespace Ret

/-- A send has succeeded. -/
def sent : Ret α → Bool
  | .send (.ok ()) => true
  | .trySend (.ok ()) => true
  | _ => false

/-- The item that a send hands back. -/
def returned : Ret α → Option α
  | .send (.error item) => some item
  | .trySend (.error (.timedOut item)) => some item
  | .trySend (.error (.noReceivers item)) => some item
  | _ => none

/-- The item that a receive returns. -/
def received : Ret α → Option α
  | .receive r => r
  | .tryReceive (.ok item) => some item
  | _ => none

end Ret

/-- The result `r` of `op` agrees with what the call has pushed and popped: a send that succeeded
has pushed its item once, a send that hands its item back has pushed nothing, and a receive has
popped what it returns. -/
def Exact (op : Op α) (r : Ret α) (pushed popped : List α) : Prop :=
  (r.sent = true → ∃ item, op.item? = some item ∧ pushed = [item]) ∧
    (r.sent = false → pushed = []) ∧
    (∀ item, r.returned = some item → op.item? = some item ∧ pushed = []) ∧
    popped = r.received.toList

namespace Op

theorem exact_dropped (op : Op α) : Exact op op.dropped [] [] := by
  cases op <;> simp [Exact, dropped, Ret.sent, Ret.returned, Ret.received, item?]

theorem exact_expired {op : Op α} {r : Ret α} (h : op.expired = some r) : Exact op r [] [] := by
  cases op <;> cases h <;> simp [Exact, Ret.sent, Ret.returned, Ret.received, item?]

theorem exact_success {op : Op α} {item : α} (h : op.item? = some item) :
    Exact op op.success [item] [] := by
  cases op <;> cases h <;> simp [Exact, success, Ret.sent, Ret.returned, Ret.received, item?]

theorem exact_delivery {op : Op α} {item : α} {r : Ret α} (h : op.delivery item = some r) :
    Exact op r [] [item] := by
  cases op <;> cases h <;> simp [Exact, Ret.sent, Ret.returned, Ret.received]

end Op

theorem exact_panicked {op : Op α} : Exact op .panicked [] [] := by
  simp [Exact, Ret.sent, Ret.returned, Ret.received]

/-- The step moves no item, and a result that it decides on tells so. -/
def MovesNothing (op : Op α) (pc pc' : OpPc α) (s s' : Shared α) : Prop :=
  s' = s ∧ (pc'.result? = none → pc.result? = none) ∧ ∀ r, pc'.result? = some r →
    pc.result? = some r ∨ pc.result? = none ∧ Exact op r [] []

section Effect

variable {op : Op α} {pc pc' : OpPc α} {r : Ret α}

theorem movesNothing_of_undecided (hpc : pc.result? = none) (hpc' : pc'.result? = none) :
    MovesNothing op pc pc' s s := by
  refine ⟨rfl, fun _ => hpc, fun r hr => ?_⟩
  rw [hpc'] at hr
  cases hr

theorem movesNothing_of_decided (hpc : pc.result? = none) (hr : pc'.result? = some r)
    (hexact : Exact op r [] []) : MovesNothing op pc pc' s s := by
  refine ⟨rfl, fun _ => hpc, fun r' hr' => ?_⟩
  cases hr.symm.trans hr'
  exact Or.inr ⟨hpc, hexact⟩

theorem movesNothing_resume (hpc : pc.result? = none) : MovesNothing op pc op.resume s s := by
  cases op with
  | waitForMessageUntil =>
    apply movesNothing_of_decided hpc rfl
    simp [Exact, Ret.sent, Ret.returned, Ret.received]
  | _ => exact movesNothing_of_undecided hpc rfl

/-- What an operation does in a step: nothing, or it pushes or pops one item and decides to return
accordingly. -/
theorem op_effect (hgoes : (op.action grow t pc).Goes s pc' s') :
    MovesNothing op pc pc' s s' ∨
    pc.result? = none ∧ pc'.result? ≠ none ∧
      ((∃ item, s.pushBack grow t item = some s' ∧
        ∀ r, pc'.result? = some r → Exact op r [item] []) ∨
      ∃ item, s.popFront t = some (item, s') ∧
        ∀ r, pc'.result? = some r → Exact op r [] [item]) := by
  cases opMoves_of_goes hgoes with
  | dropped => exact Or.inl (movesNothing_of_decided rfl rfl op.exact_dropped)
  | givesUp hr => exact Or.inl (movesNothing_of_decided rfl rfl (Op.exact_expired hr))
  | ready => exact Or.inl (movesNothing_resume rfl)
  | full hop =>
    exact Or.inl (movesNothing_of_decided rfl rfl (Op.exact_expired (by rw [hop]; rfl)))
  | disconnected => exact Or.inl (movesNothing_resume rfl)
  | released => exact Or.inl (movesNothing_resume rfl)
  | expires _ hr => exact Or.inl (movesNothing_of_decided rfl rfl (Op.exact_expired hr))
  | alone => exact Or.inl (movesNothing_of_decided rfl rfl op.exact_dropped)
  | readDropped => exact Or.inl (movesNothing_of_decided rfl rfl op.exact_dropped)
  | nothing hop =>
    exact Or.inl (movesNothing_of_decided rfl rfl (Op.exact_expired (by rw [hop]; rfl)))
  | push hitem hs =>
    refine Or.inr ⟨rfl, by simp [OpPc.result?], Or.inl ⟨_, hs, fun r hr => ?_⟩⟩
    cases hr
    exact Op.exact_success hitem
  | pushFails => exact Or.inl (movesNothing_of_decided rfl rfl exact_panicked)
  | pop hr hs =>
    refine Or.inr ⟨rfl, by simp [OpPc.result?], Or.inr ⟨_, hs, fun r' hr' => ?_⟩⟩
    cases hr'
    exact Op.exact_delivery hr
  | popNothing =>
    apply Or.inl
    apply movesNothing_of_decided rfl rfl
    simp [Exact, Ret.sent, Ret.returned, Ret.received]
  | popFails => exact Or.inl (movesNothing_of_decided rfl rfl exact_panicked)
  | notify => exact Or.inl ⟨rfl, id, fun r hr => Or.inl hr⟩
  | unlock => exact Or.inl ⟨rfl, id, fun r hr => Or.inl hr⟩
  | _ => exact Or.inl (movesNothing_of_undecided rfl rfl)

end Effect

/-! ## The entries of a call -/

/-- What a call has pushed, or popped. -/
def entriesOf (k : Call) (entries : List (Call × α)) : List α :=
  (entries.filter fun e => e.1 = k).map Prod.snd

section Entries

variable {k k' : Call} {entries : List (Call × α)} {item : α}

theorem entriesOf_append_self :
    entriesOf k (entries ++ [(k, item)]) = entriesOf k entries ++ [item] := by
  simp [entriesOf]

theorem entriesOf_append_of_ne (h : k' ≠ k) :
    entriesOf k (entries ++ [(k', item)]) = entriesOf k entries := by
  simp [entriesOf, h]

theorem entriesOf_eq_nil (h : ∀ e ∈ entries, e.1 ≠ k) : entriesOf k entries = [] := by
  simpa [entriesOf] using h

end Entries

/-! ## What a step does to the history -/

theorem pushBack_history {item : α} (h : s.pushBack grow t item = some s') :
    s'.history = { s.history with pushed := s.history.pushed ++ [(s.call t, item)] } ∧
      s'.queueFrees = s.queueFrees ∧ s'.inner.queue.items = s.inner.queue.items ++ [item] := by
  obtain ⟨queue, hqueue, rfl⟩ := Option.map_eq_some_iff.mp h
  refine ⟨rfl, rfl, ?_⟩
  unfold VecDeque.pushBack at hqueue
  split at hqueue
  · cases hqueue
    rfl
  · obtain ⟨capacity, -, rfl⟩ := Option.map_eq_some_iff.mp hqueue
    rfl

theorem popFront_history {item : α} (h : s.popFront t = some (item, s')) :
    s'.history = { s.history with popped := s.history.popped ++ [(s.call t, item)] } ∧
      s'.queueFrees = s.queueFrees ∧ s.inner.queue.items = item :: s'.inner.queue.items := by
  obtain ⟨⟨item', queue⟩, hqueue, heq⟩ := Option.map_eq_some_iff.mp h
  cases heq
  refine ⟨rfl, rfl, ?_⟩
  cases hitems : s.inner.queue.items with
  | nil => simp [VecDeque.popFront, hitems] at hqueue
  | cons x xs =>
    simp only [VecDeque.popFront, hitems, Option.some.injEq, Prod.mk.injEq] at hqueue
    obtain ⟨rfl, rfl⟩ := hqueue
    rfl

/-- A move changes the history when a call begins, transfers an item, or returns. -/
theorem Moves.history (h : Moves grow t l s l' s') :
    s'.history = s.history ∨
    (∃ k op, l' = .op k op .start ∧ s'.history = { s.history with
      calls := fun u => if u = t then s.history.calls u + 1 else s.history.calls u }) ∨
    (∃ k op r, l = .op k op (.ret r) ∧ s'.history = { s.history with
      results := s.history.results ++ [(s.call t, op, r)] }) ∨
    ∃ k op item, l = .op k op .transfer ∧
      (s.pushBack grow t item = some s' ∨ s.popFront t = some (item, s')) := by
  cases h with
  | asked ha =>
    cases ha with
    | @call k op v => exact Or.inr (Or.inl ⟨k, op, rfl, rfl⟩)
    | _ => exact Or.inl rfl
  | @op k op pc _ _ _ hgoes =>
    rcases op_transfer hgoes with rfl | ⟨rfl, ⟨item, -, hs⟩ | ⟨-, item, hs⟩⟩
    · exact Or.inl rfl
    · exact Or.inr (Or.inr (Or.inr ⟨k, op, item, rfl, Or.inl hs⟩))
    · exact Or.inr (Or.inr (Or.inr ⟨k, op, item, rfl, Or.inr hs⟩))
  | @ret k op r => exact Or.inr (Or.inr (Or.inl ⟨k, op, r, rfl, rfl⟩))
  | make hm => exact Or.inl (by cases hm <;> simp)
  | drop hd => exact Or.inl (by cases hd <;> simp)

/-- The calls of other threads do not see what a move does to the history. -/
theorem Moves.others_history (h : Moves grow u l s l' s') (hne : u ≠ t) :
    s'.call t = s.call t ∧
      entriesOf (s.call t) s'.history.pushed = entriesOf (s.call t) s.history.pushed ∧
      entriesOf (s.call t) s'.history.popped = entriesOf (s.call t) s.history.popped ∧
      ∀ x ∈ s'.history.results, x.1 = s.call t → x ∈ s.history.results := by
  have hcall : s.call u ≠ s.call t := fun heq => hne (congrArg Call.thread heq)
  -- what is new in the history stands under a call of the thread that moves
  rcases h.history with hh | ⟨k, op, -, hh⟩ | ⟨k, op, r, -, hh⟩ | ⟨k, op, item, -, hs | hs⟩
  · rw [Shared.call, hh]
    exact ⟨rfl, rfl, rfl, fun x hx _ => hx⟩
  · rw [Shared.call, hh]
    refine ⟨?_, rfl, rfl, fun x hx _ => hx⟩
    simp only [if_neg (Ne.symm hne), Shared.call]
  · rw [Shared.call, hh]
    refine ⟨rfl, rfl, rfl, fun x hx heq => ?_⟩
    rcases List.mem_append.mp hx with hx | hx
    · exact hx
    · rw [List.mem_singleton] at hx
      subst hx
      exact absurd heq hcall
  · have hh := (pushBack_history hs).1
    rw [Shared.call, hh]
    exact ⟨rfl, entriesOf_append_of_ne hcall, rfl, fun x hx _ => hx⟩
  · have hh := (popFront_history hs).1
    rw [Shared.call, hh]
    exact ⟨rfl, rfl, entriesOf_append_of_ne hcall, fun x hx _ => hx⟩

/-! ## The queue and the history -/

/-- What was pushed is what was popped and then what is queued, until the queue is dropped. -/
def Fifo (s : Shared α) : Prop :=
  s.queueFrees = 0 →
    s.history.pushed.map Prod.snd = s.history.popped.map Prod.snd ++ s.inner.queue.items

theorem Moves.fifo (h : Moves grow t l s l' s') (hfifo : Fifo s) : Fifo s' := by
  intro hfrees
  cases h with
  | asked ha => cases ha <;> exact hfifo hfrees
  | op hgoes =>
    rcases op_transfer hgoes with rfl | ⟨-, ⟨item, -, hs⟩ | ⟨-, item, hs⟩⟩
    · exact hfifo hfrees
    · obtain ⟨hh, hf, hitems⟩ := pushBack_history hs
      rw [hh, hitems, List.map_append, hfifo (hf ▸ hfrees), List.append_assoc]
      rfl
    · obtain ⟨hh, hf, hitems⟩ := popFront_history hs
      have hbefore := hfifo (hf ▸ hfrees)
      rw [hitems] at hbefore
      rw [hh, hbefore, List.map_append, List.append_assoc]
      rfl
  | ret => exact hfifo hfrees
  | make hm =>
    cases hm with
    | create => simpa using hfifo hfrees
    | _ => exact hfifo hfrees
  | drop hd =>
    cases hd with
    -- the queue goes: nothing is promised from here on
    | dropQueue => cases hfrees
    | _ => simpa using hfifo (by simpa using hfrees)

/-! ## The outline -/

/-- Where a call is, it has pushed and popped nothing before its result is decided, and exactly
what the result tells afterwards. -/
structure Current (t : Tid) (op : Op α) (pc : OpPc α) (s : Shared α) : Prop where
  unreturned : ∀ x ∈ s.history.results, x.1 ≠ s.call t
  undecided : pc.result? = none →
    entriesOf (s.call t) s.history.pushed = [] ∧ entriesOf (s.call t) s.history.popped = []
  decided : ∀ r, pc.result? = some r →
    Exact op r (entriesOf (s.call t) s.history.pushed) (entriesOf (s.call t) s.history.popped)

/-- The history and the queue agree, and every result tells what its call did. -/
structure Recorded (s : Shared α) : Prop where
  fifo : Fifo s
  exact : ∀ x ∈ s.history.results,
    Exact x.2.1 x.2.2 (entriesOf x.1 s.history.pushed) (entriesOf x.1 s.history.popped)
  pushed : ∀ x ∈ s.history.pushed, x.1.number ≤ s.history.calls x.1.thread
  popped : ∀ x ∈ s.history.popped, x.1.number ≤ s.history.calls x.1.thread
  results : ∀ x ∈ s.history.results, x.1.number ≤ s.history.calls x.1.thread

def historyOutline : Outline (Shared α) Tid (Pc α) where
  global := Recorded
  running t l s := ∀ h op pc, l = .op h op pc → Current t op pc s
  asleep t l s := ∃ h op late, l = .op h op (.testQueue late) ∧ Current t op (.testQueue late) s

/-- A move of another thread leaves a call as it is. -/
theorem Current.frame {op : Op α} {pc : OpPc α} (h : Current t op pc s) (hne : u ≠ t)
    (hm : Moves grow u l s l' s') : Current t op pc s' := by
  obtain ⟨hcall, hpushed, hpopped, hresults⟩ := hm.others_history hne
  refine ⟨fun x hx heq => ?_, fun hpc => ?_, fun r hr => ?_⟩
  · rw [hcall] at heq
    exact h.unreturned x (hresults x hx heq) heq
  · rw [hcall, hpushed, hpopped]
    exact h.undecided hpc
  · rw [hcall, hpushed, hpopped]
    exact h.decided r hr

/-- The next point of a call that has moved no item. -/
theorem Current.of_still {op : Op α} {pc pc' : OpPc α} (h : Current t op pc s)
    (hnone : pc'.result? = none → pc.result? = none)
    (hsome : ∀ r, pc'.result? = some r →
      pc.result? = some r ∨ pc.result? = none ∧ Exact op r [] []) : Current t op pc' s := by
  refine ⟨h.unreturned, fun hpc => h.undecided (hnone hpc), fun r hr => ?_⟩
  rcases hsome r hr with hpc | ⟨hpc, hexact⟩
  · exact h.decided r hpc
  · rw [(h.undecided hpc).1, (h.undecided hpc).2]
    exact hexact

/-- A call pushes its item. -/
theorem Current.push {op : Op α} {pc pc' : OpPc α} {item : α} (h : Current t op pc s)
    (hpc : pc.result? = none) (hpc' : pc'.result? ≠ none)
    (hs : s.pushBack grow t item = some s')
    (hexact : ∀ r, pc'.result? = some r → Exact op r [item] []) : Current t op pc' s' := by
  have hh := (pushBack_history hs).1
  have hcall : s'.call t = s.call t := by rw [Shared.call, hh]; rfl
  obtain ⟨hpushed, hpopped⟩ := h.undecided hpc
  refine ⟨?_, fun hnone => absurd hnone hpc', fun r hr => ?_⟩
  · rw [hcall, hh]
    exact h.unreturned
  · rw [hcall, hh, entriesOf_append_self, hpushed, hpopped]
    exact hexact r hr

/-- A call pops an item. -/
theorem Current.pop {op : Op α} {pc pc' : OpPc α} {item : α} (h : Current t op pc s)
    (hpc : pc.result? = none) (hpc' : pc'.result? ≠ none)
    (hs : s.popFront t = some (item, s'))
    (hexact : ∀ r, pc'.result? = some r → Exact op r [] [item]) : Current t op pc' s' := by
  have hh := (popFront_history hs).1
  have hcall : s'.call t = s.call t := by rw [Shared.call, hh]; rfl
  obtain ⟨hpushed, hpopped⟩ := h.undecided hpc
  refine ⟨?_, fun hnone => absurd hnone hpc', fun r hr => ?_⟩
  · rw [hcall, hh]
    exact h.unreturned
  · rw [hcall, hh, entriesOf_append_self, hpushed, hpopped]
    exact hexact r hr

/-- A call that begins is a new one. -/
theorem current_of_begin {h : ℕ} {op : Op α} (hrec : Recorded s) :
    Current t op .start (s.begin t h) := by
  -- the number of the new call is above all that the history mentions
  have hnew : ∀ k : Call, k.number ≤ s.history.calls k.thread → k ≠ (s.begin t h).call t := by
    rintro ⟨u, n⟩ hn heq
    simp only [Shared.call, Shared.begin, if_true, Call.mk.injEq] at heq
    obtain ⟨rfl, rfl⟩ := heq
    exact Nat.not_succ_le_self _ hn
  refine ⟨fun x hx => hnew _ (hrec.results x hx), fun _ => ?_, fun r hr => by cases hr⟩
  exact ⟨entriesOf_eq_nil fun e he => hnew _ (hrec.pushed e he),
    entriesOf_eq_nil fun e he => hnew _ (hrec.popped e he)⟩

theorem Moves.recorded (hm : Moves grow t l s l' s') (hl : historyOutline.running t l s)
    (h : Recorded s) : Recorded s' := by
  have hfifo := hm.fifo h.fifo
  rcases hm.history with hh | ⟨k, op, -, hh⟩ | ⟨k, op, r, rfl, hh⟩ |
    ⟨k, op, item, rfl, hs | hs⟩
  · refine ⟨hfifo, ?_, ?_, ?_, ?_⟩
    all_goals rw [hh]
    exacts [h.exact, h.pushed, h.popped, h.results]
  · have hle : ∀ u, s.history.calls u ≤ s'.history.calls u := by
      intro u
      rw [hh]
      dsimp only
      split
      · exact Nat.le_succ _
      · exact Nat.le_refl _
    refine ⟨hfifo, ?_, fun x hx => ?_, fun x hx => ?_, fun x hx => ?_⟩
    · rw [hh]
      exact h.exact
    · exact Nat.le_trans (h.pushed x (by rwa [hh] at hx)) (hle _)
    · exact Nat.le_trans (h.popped x (by rwa [hh] at hx)) (hle _)
    · exact Nat.le_trans (h.results x (by rwa [hh] at hx)) (hle _)
  · -- the call returns, with exactly what it decided on
    have hcurrent := (hl k op _ rfl).decided r rfl
    refine ⟨hfifo, ?_, ?_, ?_, ?_⟩
    all_goals rw [hh]
    · exact List.forall_mem_append.mpr ⟨h.exact, List.forall_mem_singleton.mpr hcurrent⟩
    · exact h.pushed
    · exact h.popped
    · exact List.forall_mem_append.mpr ⟨h.results, List.forall_mem_singleton.mpr (Nat.le_refl _)⟩
  · have hh := (pushBack_history hs).1
    refine ⟨hfifo, ?_, ?_, ?_, ?_⟩
    all_goals rw [hh]
    · intro x hx
      -- the entry belongs to a call that has not returned
      rw [entriesOf_append_of_ne ((hl k op _ rfl).unreturned x hx).symm]
      exact h.exact x hx
    · exact List.forall_mem_append.mpr ⟨h.pushed, List.forall_mem_singleton.mpr (Nat.le_refl _)⟩
    · exact h.popped
    · exact h.results
  · have hh := (popFront_history hs).1
    refine ⟨hfifo, ?_, ?_, ?_, ?_⟩
    all_goals rw [hh]
    · intro x hx
      rw [entriesOf_append_of_ne ((hl k op _ rfl).unreturned x hx).symm]
      exact h.exact x hx
    · exact h.pushed
    · exact List.forall_mem_append.mpr ⟨h.popped, List.forall_mem_singleton.mpr (Nat.le_refl _)⟩
    · exact h.results

/-- What a move leads to knows what its call has done. -/
theorem Moves.current (hm : Moves grow t l s l' s') (hl : historyOutline.running t l s)
    (h : Recorded s) : historyOutline.running t l' s' := by
  rintro k op pc' rfl
  cases hm with
  | asked ha =>
    -- a call that begins starts with nothing
    cases ha
    exact current_of_begin h
  | op hgoes =>
    have hcurrent := hl k op _ rfl
    rcases op_effect hgoes with ⟨rfl, hnone, hsome⟩ |
      ⟨hundecided, hdecided, ⟨item, hs, hexact⟩ | ⟨item, hs, hexact⟩⟩
    · exact hcurrent.of_still hnone hsome
    · exact hcurrent.push hundecided hdecided hs hexact
    · exact hcurrent.pop hundecided hdecided hs hexact
  | make hmake => cases hmake
  | drop hdrop => cases hdrop

theorem historyOutline_valid (apart : Pc α → Pc α → Prop) :
    historyOutline.Valid (program grow) apart fun _ _ _ => True where
  own {t l s} hglobal hl _ := by
    refine program_establishes (fun l' s' hm => ⟨hm.recorded hl hglobal, hm.current hl hglobal⟩) ?_
    rintro h op late rfl
    refine ⟨h, op, late, rfl, (hl h op _ rfl).of_still (fun _ => rfl) fun r hr => ?_⟩
    cases hr
  wake _ hasleep := by
    obtain ⟨h, op, late, rfl, hcurrent⟩ := hasleep
    intro h' op' pc' heq
    cases heq
    exact hcurrent
  frame hne _ _ _ hgoes _ hl := fun h op pc heq =>
    (hl h op pc heq).frame hne (moves_of_goes hgoes)
  frameAsleep hne _ _ _ hgoes hasleep := by
    obtain ⟨h, op, late, rfl, hcurrent⟩ := hasleep
    exact ⟨h, op, late, rfl, hcurrent.frame hne (moves_of_goes hgoes)⟩

theorem historyOutline_initial : historyOutline.Holds (initial (α := α) capacity) where
  global := {
    fifo := fun _ => rfl
    exact := fun x hx => by cases hx
    pushed := fun x hx => by cases hx
    popped := fun x hx => by cases hx
    results := fun x hx => by cases hx }
  at_ _ := fun h op pc heq => by cases heq

/-! ## Runs -/

/-- Nothing is pushed or popped in the step, or one item by the owner of the mutex, who takes the
step. -/
def MovesOne (c : State α) (i : Event α) (c' : State α) : Prop :=
  (c'.shared.history.pushed = c.shared.history.pushed ∧
    c'.shared.history.popped = c.shared.history.popped) ∨
  c.owner = some i.mover ∧ ∃ item,
    (c'.shared.history.pushed = c.shared.history.pushed ++ [(c.shared.call i.mover, item)] ∧
      c'.shared.history.popped = c.shared.history.popped) ∨
    c'.shared.history.popped = c.shared.history.popped ++ [(c.shared.call i.mover, item)] ∧
      c'.shared.history.pushed = c.shared.history.pushed

theorem movesOne_of_step (hsound : Sound c) (hstep : Step (program grow) c i c') :
    MovesOne c i c' := by
  rcases hstep.moves with ⟨l, l', ht, -, hgoes⟩ | ⟨hs, -⟩
  · rcases (moves_of_goes hgoes).history with hh | ⟨k, op, -, hh⟩ | ⟨k, op, r, -, hh⟩ |
      ⟨k, op, item, rfl, hs | hs⟩
    · exact Or.inl (by rw [hh]; exact ⟨rfl, rfl⟩)
    · exact Or.inl (by rw [hh]; exact ⟨rfl, rfl⟩)
    · exact Or.inl (by rw [hh]; exact ⟨rfl, rfl⟩)
    · -- an item is moved under the mutex only
      refine Or.inr ⟨(hsound.exclusive.of_running ht).1.mpr rfl, item, Or.inl ?_⟩
      rw [(pushBack_history hs).1]
      exact ⟨rfl, rfl⟩
    · refine Or.inr ⟨(hsound.exclusive.of_running ht).1.mpr rfl, item, Or.inr ?_⟩
      rw [(popFront_history hs).1]
      exact ⟨rfl, rfl⟩
  · exact Or.inl (by rw [hs]; exact ⟨rfl, rfl⟩)

/-- In the state, nothing is lost or duplicated before the queue is dropped, which happens in a
teardown only, and every result tells exactly what its call has pushed and popped. -/
def Accounted (c : State α) : Prop :=
  Fifo c.shared ∧ (c.shared.inner.dropping = false → c.shared.queueFrees = 0) ∧
    ∀ k op r, (k, op, r) ∈ c.shared.history.results →
      Exact op r (entriesOf k c.shared.history.pushed) (entriesOf k c.shared.history.popped)

theorem accounted_of_holds (hsound : Sound c) (h : historyOutline.Holds c) : Accounted c := by
  refine ⟨h.global.fifo, fun hd => ?_, fun k op r hx => h.global.exact (k, op, r) hx⟩
  by_contra hfrees
  rw [hsound.teardown.global (Or.inl hfrees)] at hd
  cases hd

/-- **First in, first out, no loss and no duplication**: in every state of a run, until the queue is
dropped, the pushed items are the popped ones followed by the queue, and every result tells exactly
what its call has pushed and popped; and every step moves at most one item, in the hands of the
owner of the mutex. -/
theorem fifo_of_run (hrun : Run (Step (program grow)) (initial capacity) tr c) :
    Everywhere Accounted tr c ∧
      Throughout (fun c i => ∀ c', Step (program grow) c i c' → MovesOne c i c') tr := by
  have hholds : Everywhere (fun c => Sound c ∧ historyOutline.Holds c) tr c :=
    (historyOutline_valid NeverTogether).run hrun (sound_initial capacity)
      (fun h hstep => h.step hstep) (fun h => h.apart) historyOutline_initial
      fun _ _ _ _ => trivial
  refine ⟨⟨accounted_of_holds hholds.1.1 hholds.1.2, fun x hx => ?_⟩, fun x hx c' hstep => ?_⟩
  · exact accounted_of_holds (hholds.2 x hx).1 (hholds.2 x hx).2
  · exact movesOne_of_step (hholds.2 x hx).1 hstep

/-- An item that is sent and received. -/
theorem fifo_of_sendReceive : ∃ tr, ∃ c : State ℕ,
    Run (Step (program fun _ => none)) (initial 1) tr c ∧ Everywhere Accounted tr c ∧
      c.shared.history.results.length = 2 := by
  obtain ⟨tr, c, hrun, -, htest⟩ := exists_run_of_exec (program fun _ => none) (fun _ _ => true)
    (initial 1)
    (making ⟨0, 0⟩ 0 .sender ++ making ⟨0, 0⟩ 0 .receiver ++ calling ⟨0, 0⟩ 1 (.trySend 7) 9 ++
      calling ⟨0, 1⟩ 2 .receive 7)
    (fun c => c.shared.history.results.length = 2) (by decide)
  exact ⟨tr, c, hrun, (fifo_of_run hrun).1, of_decide_eq_true htest⟩

end ShmemUtils.Channel
