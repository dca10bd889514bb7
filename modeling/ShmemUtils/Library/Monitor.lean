import ShmemUtils.Library.Runs

/-!
# Threads around one mutex

Any number of threads share data, one mutex and some condition variables. A program gives the next
action of a thread at a program point; each action is one atomic step, so that a run is an
interleaving of single accesses, mutex operations and condition variable operations.

Entering a wait registers the thread and releases the mutex in one step. A thread is *registered* on
a condition variable while it is in its list of waiters; a signal, a broadcast, a time-out and a
spurious wake-up take it out of the list, and it then contends for the mutex again. Until it has the
mutex back it is one of its users, as in the POSIX implementation of Linux: there destroying a mutex
fails while it has users, and destroying a condition variable blocks while threads are registered.
-/

namespace ShmemUtils.Library.Monitor

/-- The next action of a thread: `S` is the shared data, `L` the program points, `C` the condition
variables, and `I` the inputs that the environment chooses. -/
inductive Action (S L C I : Type) where
  | atomic (f : S → S × L)
  | ask (f : I → S → Option (S × L))
  | tryLock (got busy : L)
  | timedLock (got timedOut : L)
  | unlock (next : L)
  -- whether the mutex is in use, held or inside a wait, without taking it
  | probe (free busy : L)
  -- `late` is where a timed wait goes on when its time runs out
  | wait (cv : C) (next : L) (late : Option L)
  | signal (cv : C) (next : L)
  | broadcast (cv : C) (next : L)
  -- goes on when nobody is registered
  | drain (cv : C) (next : L)
  | halt

namespace Action

variable {S L L' C I : Type}

/-- The same action in a program whose points contain those of another. -/
def map (g : L → L') : Action S L C I → Action S L' C I
  | .atomic f => .atomic fun s => ((f s).1, g (f s).2)
  | .ask f => .ask fun i s => (f i s).map fun r => (r.1, g r.2)
  | .tryLock got busy => .tryLock (g got) (g busy)
  | .timedLock got timedOut => .timedLock (g got) (g timedOut)
  | .unlock next => .unlock (g next)
  | .probe free busy => .probe (g free) (g busy)
  | .wait cv next late => .wait cv (g next) (late.map g)
  | .signal cv next => .signal cv (g next)
  | .broadcast cv next => .broadcast cv (g next)
  | .drain cv next => .drain cv (g next)
  | .halt => .halt

end Action

inductive Thread (L C : Type) where
  | running (l : L)
  -- inside a wait: registered, or notified since
  | blocked (cv : C) (next : L) (late : Option L)
  -- out of the condition variable after a time-out or a spurious wake-up
  | woken (next : L)
deriving DecidableEq

structure Config (T S L C : Type) where
  shared : S
  owner : Option T
  waiters : C → List T
  -- the threads that are inside a wait, registered or not
  waiting : List T
  threads : T → Thread L C

/-- Who moves, and the choices that the program leaves open. -/
inductive Label (T I : Type) where
  | run (t : T)
  | ask (t : T) (i : I)
  | notify (t u : T)
  | expire (t : T)
  | spurious (t : T)
deriving DecidableEq

namespace Label

def mover {T I : Type} : Label T I → T
  | .run t => t
  | .ask t _ => t
  | .notify t _ => t
  | .expire t => t
  | .spurious t => t

end Label

namespace Config

variable {T S L C : Type}

/-- Thread `t` is registered on `cv` and has not been notified. -/
def Registered (c : Config T S L C) (cv : C) (t : T) : Prop := t ∈ c.waiters cv

/-- Nobody holds the mutex or is going to hold it after a wait. -/
def unused (c : Config T S L C) : Bool := c.owner.isNone && c.waiting.isEmpty

theorem unused_iff {c : Config T S L C} : c.unused = true ↔ c.owner = none ∧ c.waiting = [] := by
  simp [unused]

section Goto

variable [DecidableEq T]

/-- The thread goes on at another point, or falls asleep. -/
def goto (c : Config T S L C) (t : T) (th : Thread L C) : Config T S L C :=
  { c with threads := fun u => if u = t then th else c.threads u }

variable (c : Config T S L C) (t : T) (th : Thread L C)

@[simp] theorem goto_shared : (c.goto t th).shared = c.shared := rfl
@[simp] theorem goto_owner : (c.goto t th).owner = c.owner := rfl
@[simp] theorem goto_waiters : (c.goto t th).waiters = c.waiters := rfl
@[simp] theorem goto_waiting : (c.goto t th).waiting = c.waiting := rfl
@[simp] theorem goto_threads_self : (c.goto t th).threads t = th := if_pos rfl

theorem goto_threads_of_ne {c : Config T S L C} {t u : T} {th : Thread L C} (h : u ≠ t) :
    (c.goto t th).threads u = c.threads u := if_neg h

end Goto

section Waiters

variable [DecidableEq C]

/-- The waiters of one condition variable change. -/
def setWaiters (c : Config T S L C) (cv : C) (ts : List T) : Config T S L C :=
  { c with waiters := fun cv' => if cv' = cv then ts else c.waiters cv' }

variable (c : Config T S L C) (cv : C) (ts : List T)

@[simp] theorem setWaiters_shared : (c.setWaiters cv ts).shared = c.shared := rfl
@[simp] theorem setWaiters_owner : (c.setWaiters cv ts).owner = c.owner := rfl
@[simp] theorem setWaiters_waiting : (c.setWaiters cv ts).waiting = c.waiting := rfl
@[simp] theorem setWaiters_threads : (c.setWaiters cv ts).threads = c.threads := rfl
@[simp] theorem setWaiters_waiters_self : (c.setWaiters cv ts).waiters cv = ts := if_pos rfl

theorem setWaiters_waiters_of_ne {c : Config T S L C} {cv cv' : C} {ts : List T}
    (h : cv' ≠ cv) : (c.setWaiters cv ts).waiters cv' = c.waiters cv' := if_neg h

end Waiters

end Config

variable {T S L C I : Type} [DecidableEq T] [DecidableEq C]

/-! ## Steps -/

/-- One atomic step of the program `P`. -/
inductive Step (P : T → L → Action S L C I) :
    Config T S L C → Label T I → Config T S L C → Prop where
  | atomic {c : Config T S L C} {t : T} {l : L} {f : S → S × L} :
      c.threads t = .running l → P t l = .atomic f →
      Step P c (.run t) ({ c with shared := (f c.shared).1 }.goto t (.running (f c.shared).2))
  | ask {c : Config T S L C} {t : T} {l l' : L} {i : I} {s' : S} {f : I → S → Option (S × L)} :
      c.threads t = .running l → P t l = .ask f → f i c.shared = some (s', l') →
      Step P c (.ask t i) ({ c with shared := s' }.goto t (.running l'))
  | tryLock {c : Config T S L C} {t : T} {l got busy : L} :
      c.threads t = .running l → P t l = .tryLock got busy → c.owner = none →
      Step P c (.run t) ({ c with owner := some t }.goto t (.running got))
  | tryLockBusy {c : Config T S L C} {t : T} {l got busy : L} :
      c.threads t = .running l → P t l = .tryLock got busy → c.owner ≠ none →
      Step P c (.run t) (c.goto t (.running busy))
  | timedLock {c : Config T S L C} {t : T} {l got timedOut : L} :
      c.threads t = .running l → P t l = .timedLock got timedOut → c.owner = none →
      Step P c (.run t) ({ c with owner := some t }.goto t (.running got))
  -- a lock attempt runs out of time only while somebody holds the mutex
  | timedLockExpired {c : Config T S L C} {t : T} {l got timedOut : L} :
      c.threads t = .running l → P t l = .timedLock got timedOut → c.owner ≠ none →
      Step P c (.expire t) (c.goto t (.running timedOut))
  | unlock {c : Config T S L C} {t : T} {l next : L} :
      c.threads t = .running l → P t l = .unlock next → c.owner = some t →
      Step P c (.run t) ({ c with owner := none }.goto t (.running next))
  | probe {c : Config T S L C} {t : T} {l free busy : L} :
      c.threads t = .running l → P t l = .probe free busy →
      Step P c (.run t) (c.goto t (.running (if c.unused then free else busy)))
  | wait {c : Config T S L C} {t : T} {l next : L} {cv : C} {late : Option L} :
      c.threads t = .running l → P t l = .wait cv next late → c.owner = some t →
      Step P c (.run t)
        (({ c with owner := none, waiting := t :: c.waiting }.setWaiters cv
          (c.waiters cv ++ [t])).goto t (.blocked cv next late))
  | signalNobody {c : Config T S L C} {t : T} {l next : L} {cv : C} :
      c.threads t = .running l → P t l = .signal cv next → c.waiters cv = [] →
      Step P c (.run t) (c.goto t (.running next))
  | signal {c : Config T S L C} {t u : T} {l next : L} {cv : C} :
      c.threads t = .running l → P t l = .signal cv next → u ∈ c.waiters cv →
      Step P c (.notify t u)
        ((c.setWaiters cv ((c.waiters cv).filter (· ≠ u))).goto t (.running next))
  | broadcast {c : Config T S L C} {t : T} {l next : L} {cv : C} :
      c.threads t = .running l → P t l = .broadcast cv next →
      Step P c (.run t) ((c.setWaiters cv []).goto t (.running next))
  | drain {c : Config T S L C} {t : T} {l next : L} {cv : C} :
      c.threads t = .running l → P t l = .drain cv next → c.waiters cv = [] →
      Step P c (.run t) (c.goto t (.running next))
  | notified {c : Config T S L C} {t : T} {cv : C} {next : L} {late : Option L} :
      c.threads t = .blocked cv next late → t ∉ c.waiters cv → c.owner = none →
      Step P c (.run t)
        ({ c with owner := some t, waiting := c.waiting.filter (· ≠ t) }.goto t (.running next))
  | relock {c : Config T S L C} {t : T} {next : L} :
      c.threads t = .woken next → c.owner = none →
      Step P c (.run t)
        ({ c with owner := some t, waiting := c.waiting.filter (· ≠ t) }.goto t (.running next))
  | timedOut {c : Config T S L C} {t : T} {cv : C} {next late : L} :
      c.threads t = .blocked cv next (some late) → t ∈ c.waiters cv →
      Step P c (.expire t)
        ((c.setWaiters cv ((c.waiters cv).filter (· ≠ t))).goto t (.woken late))
  | spurious {c : Config T S L C} {t : T} {cv : C} {next : L} {late : Option L} :
      c.threads t = .blocked cv next late → t ∈ c.waiters cv →
      Step P c (.spurious t)
        ((c.setWaiters cv ((c.waiters cv).filter (· ≠ t))).goto t (.woken next))

/-- The step with a given label, if the label fits the state. -/
def next (P : T → L → Action S L C I) (c : Config T S L C) :
    Label T I → Option (Config T S L C)
  | .run t =>
    match c.threads t with
    | .running l =>
      match P t l with
      | .atomic f =>
        some ({ c with shared := (f c.shared).1 }.goto t (.running (f c.shared).2))
      | .tryLock got busy =>
        if c.owner = none then some ({ c with owner := some t }.goto t (.running got))
        else some (c.goto t (.running busy))
      | .timedLock got _ =>
        if c.owner = none then some ({ c with owner := some t }.goto t (.running got)) else none
      | .unlock next =>
        if c.owner = some t then some ({ c with owner := none }.goto t (.running next)) else none
      | .probe free busy => some (c.goto t (.running (if c.unused then free else busy)))
      | .wait cv next late =>
        if c.owner = some t then
          some (({ c with owner := none, waiting := t :: c.waiting }.setWaiters cv
            (c.waiters cv ++ [t])).goto t (.blocked cv next late))
        else none
      | .signal cv next =>
        if c.waiters cv = [] then some (c.goto t (.running next)) else none
      | .broadcast cv next => some ((c.setWaiters cv []).goto t (.running next))
      | .drain cv next =>
        if c.waiters cv = [] then some (c.goto t (.running next)) else none
      | .ask _ => none
      | .halt => none
    | .blocked cv next _ =>
      if t ∉ c.waiters cv ∧ c.owner = none then
        some ({ c with owner := some t, waiting := c.waiting.filter (· ≠ t) }.goto t
          (.running next))
      else none
    | .woken next =>
      if c.owner = none then
        some ({ c with owner := some t, waiting := c.waiting.filter (· ≠ t) }.goto t
          (.running next))
      else none
  | .ask t i =>
    match c.threads t with
    | .running l =>
      match P t l with
      | .ask f => (f i c.shared).map fun r => { c with shared := r.1 }.goto t (.running r.2)
      | _ => none
    | _ => none
  | .notify t u =>
    match c.threads t with
    | .running l =>
      match P t l with
      | .signal cv next =>
        if u ∈ c.waiters cv then
          some ((c.setWaiters cv ((c.waiters cv).filter (· ≠ u))).goto t (.running next))
        else none
      | _ => none
    | _ => none
  | .expire t =>
    match c.threads t with
    | .running l =>
      match P t l with
      | .timedLock _ timedOut =>
        if c.owner = none then none else some (c.goto t (.running timedOut))
      | _ => none
    | .blocked cv _ (some late) =>
      if t ∈ c.waiters cv then
        some ((c.setWaiters cv ((c.waiters cv).filter (· ≠ t))).goto t (.woken late))
      else none
    | _ => none
  | .spurious t =>
    match c.threads t with
    | .blocked cv next _ =>
      if t ∈ c.waiters cv then
        some ((c.setWaiters cv ((c.waiters cv).filter (· ≠ t))).goto t (.woken next))
      else none
    | _ => none

theorem step_of_next {P : T → L → Action S L C I} {c c' : Config T S L C} {i : Label T I}
    (h : next P c i = some c') : Step P c i c' := by
  cases i with
  | run t =>
    simp only [next] at h
    split at h
    · next l hl =>
      split at h
      · next f hf => cases h; exact .atomic hl hf
      · next got busy ha =>
        split at h
        · next hfree => cases h; exact .tryLock hl ha hfree
        · next hheld => cases h; exact .tryLockBusy hl ha hheld
      · next got timedOut ha =>
        split at h
        · next hfree => cases h; exact .timedLock hl ha hfree
        · cases h
      · next k ha =>
        split at h
        · next hown => cases h; exact .unlock hl ha hown
        · cases h
      · next free busy ha => cases h; exact .probe hl ha
      · next cv k late ha =>
        split at h
        · next hown => cases h; exact .wait hl ha hown
        · cases h
      · next cv k ha =>
        split at h
        · next hnil => cases h; exact .signalNobody hl ha hnil
        · cases h
      · next cv k ha => cases h; exact .broadcast hl ha
      · next cv k ha =>
        split at h
        · next hnil => cases h; exact .drain hl ha hnil
        · cases h
      · cases h
      · cases h
    · next cv k late hl =>
      split at h
      · next hnot => cases h; exact .notified hl hnot.1 hnot.2
      · cases h
    · next k hl =>
      split at h
      · next hfree => cases h; exact .relock hl hfree
      · cases h
  | ask t i =>
    simp only [next] at h
    split at h
    · next l hl =>
      split at h
      · next f hf =>
        obtain ⟨⟨s', l'⟩, hsome, hc⟩ := Option.map_eq_some_iff.mp h
        subst hc
        exact .ask hl hf hsome
      · cases h
    · cases h
  | notify t u =>
    simp only [next] at h
    split at h
    · next l hl =>
      split at h
      · next cv k ha =>
        split at h
        · next hmem => cases h; exact .signal hl ha hmem
        · cases h
      · cases h
    · cases h
  | expire t =>
    simp only [next] at h
    split at h
    · next l hl =>
      split at h
      · next got timedOut ha =>
        split at h
        · cases h
        · next hheld => cases h; exact .timedLockExpired hl ha hheld
      · cases h
    · next cv k late hl =>
      split at h
      · next hmem => cases h; exact .timedOut hl hmem
      · cases h
    · cases h
  | spurious t =>
    simp only [next] at h
    split at h
    · next cv k late hl =>
      split at h
      · next hmem => cases h; exact .spurious hl hmem
      · cases h
    · cases h

theorem next_of_step {P : T → L → Action S L C I} {c c' : Config T S L C} {i : Label T I}
    (h : Step P c i c') : next P c i = some c' := by
  cases h with
  | atomic hl ha => simp only [next, hl, ha]
  | ask hl ha hsome => simp only [next, hl, ha, hsome, Option.map_some]
  | tryLock hl ha hfree => simp only [next, hl, ha, if_pos hfree]
  | tryLockBusy hl ha hheld => simp only [next, hl, ha, if_neg hheld]
  | timedLock hl ha hfree => simp only [next, hl, ha, if_pos hfree]
  | timedLockExpired hl ha hheld => simp only [next, hl, ha, if_neg hheld]
  | unlock hl ha hown => simp only [next, hl, ha, if_pos hown]
  | probe hl ha => simp only [next, hl, ha]
  | wait hl ha hown => simp only [next, hl, ha, if_pos hown]
  | signalNobody hl ha hnil => simp only [next, hl, ha, if_pos hnil]
  | signal hl ha hmem => simp only [next, hl, ha, if_pos hmem]
  | broadcast hl ha => simp only [next, hl, ha]
  | drain hl ha hnil => simp only [next, hl, ha, if_pos hnil]
  | notified hl hnot hfree => simp only [next, hl, if_pos (And.intro hnot hfree)]
  | relock hl hfree => simp only [next, hl, if_pos hfree]
  | timedOut hl hmem => simp only [next, hl, if_pos hmem]
  | spurious hl hmem => simp only [next, hl, if_pos hmem]

/-- The state after a script of labels, each of which has to fit the state and to pass a test. -/
def exec (P : T → L → Action S L C I) (ok : Config T S L C → Label T I → Bool) :
    List (Label T I) → Config T S L C → Option (Config T S L C)
  | [], c => some c
  | i :: is, c => if ok c i then (next P c i).bind (exec P ok is) else none

/-- A script that can be executed is a run, and its steps pass the test. -/
theorem run_of_exec {P : T → L → Action S L C I} {ok : Config T S L C → Label T I → Bool}
    {c₀ c c' : Config T S L C} {tr : List (Config T S L C × Label T I)} {is : List (Label T I)}
    (hrun : Run (Step P) c₀ tr c) (hok : Throughout (fun c i => ok c i = true) tr)
    (h : exec P ok is c = some c') :
    ∃ tr', Run (Step P) c₀ tr' c' ∧ Throughout (fun c i => ok c i = true) tr' := by
  induction is generalizing c tr with
  | nil =>
    cases h
    exact ⟨tr, hrun, hok⟩
  | cons i is ih =>
    simp only [exec] at h
    split at h
    · next hi =>
      obtain ⟨c₁, hnext, hrest⟩ := Option.bind_eq_some_iff.mp h
      exact ih (hrun.next (step_of_next hnext)) (throughout_cons.mpr ⟨hi, hok⟩) hrest
    · cases h

/-- A script whose last state passes a test leads to a state that passes it. -/
theorem exists_run_of_exec (P : T → L → Action S L C I)
    (ok : Config T S L C → Label T I → Bool) (c₀ : Config T S L C) (is : List (Label T I))
    (test : Config T S L C → Bool) (h : (exec P ok is c₀).any test = true) :
    ∃ tr c, Run (Step P) c₀ tr c ∧ Throughout (fun c i => ok c i = true) tr ∧ test c = true := by
  obtain ⟨c, hc, htest⟩ := (Option.any_eq_true _ _).mp h
  obtain ⟨tr, hrun, hok⟩ := run_of_exec .start (throughout_nil _) hc
  exact ⟨tr, c, hrun, hok, htest⟩

end ShmemUtils.Library.Monitor
