import ShmemUtils.Library.Linearizable
import ShmemUtils.Library.Rest

/-!
# Objects behind a mutex

The operations of an object take many small steps on its data, inside critical sections of one
mutex. Its callers are threads that hand things over to a call and get things back from it, and keep
books of what they have.

`program` has one action for each small step, and `Acts` is the system in which a call acts on the
data at once. Every run of the first shows a run of the second (`exists_run`): a call acts in the
last step of its critical section, which lies between its invocation and its return. What holds of
calls one at a time then holds of calls from any number of threads.
-/

namespace ShmemUtils.Library.Locked

open Monitor

/-- The code of the operations `O` on the data `S`: `B` are the points of critical sections, and `R`
the results. -/
structure Code (S O B R : Type) where
  -- a call needs no critical section, or it begins one
  enter : O → B ⊕ R
  step : B → S → S × (B ⊕ R)

/-- The callers: with the books `G` they choose what to call, and enter what they get. -/
structure Callers (T G O R I : Type) where
  invoke : T → I → G → Option (G × O)
  receive : T → O → R → G → G

variable {S O B R T G I : Type}

/-! ## Small steps -/

inductive Point (O B R : Type) where
  | idle
  | called (o : O)
  | locking (o : O) (b : B)
  | inside (o : O) (b : B)
  | leaving (o : O) (r : R)
  | returning (o : O) (r : R)

/-- Whether the mutex is held at the point. -/
def Point.holding : Point O B R → Bool
  | .inside _ _ => true
  | .leaving _ _ => true
  | _ => false

section Program

variable (code : Code S O B R) (callers : Callers T G O R I)

def program (t : T) : Point O B R → Action (S × G) (Point O B R) Empty I
  | .idle => .ask fun i s => (callers.invoke t i s.2).map fun r => ((s.1, r.1), .called r.2)
  | .called o =>
    .atomic fun s => (s, match code.enter o with
      | .inl b => .locking o b
      | .inr r => .returning o r)
  -- whoever finds the mutex held goes on trying
  | .locking o b => .timedLock (.inside o b) (.locking o b)
  | .inside o b =>
    .atomic fun s => (((code.step b s.1).1, s.2), match (code.step b s.1).2 with
      | .inl b' => .inside o b'
      | .inr r => .leaving o r)
  | .leaving o r => .unlock (.returning o r)
  | .returning o r => .atomic fun s => ((s.1, callers.receive t o r s.2), .idle)

/-- Nobody has called anything. -/
def start (s : S) (g : G) : Config T (S × G) (Point O B R) Empty where
  shared := (s, g)
  owner := none
  waiters cv := cv.elim
  waiting := []
  threads _ := .running .idle

theorem disciplined : Disciplined (program code callers) Point.holding := by
  intro t l
  cases l with
  | idle =>
    intro i s r hr
    obtain ⟨x, -, rfl⟩ := Option.map_eq_some_iff.mp hr
    rfl
  | called o =>
    intro s
    cases code.enter o <;> rfl
  | locking o b => exact ⟨rfl, rfl, rfl⟩
  | inside o b =>
    intro s
    dsimp only
    cases (code.step b s.1).2 <;> rfl
  | leaving o r => exact ⟨rfl, rfl⟩
  | returning o r => exact fun s => rfl

end Program

theorem exclusive_start (s : S) (g : G) :
    Exclusive Point.holding (start s g : Config T (S × G) (Point O B R) Empty) :=
  fun _ => ⟨⟨(nomatch ·), (nomatch ·)⟩, fun cv => cv.elim⟩

/-! ## Whole calls -/

/-- The critical section runs from a point and the data `s` to its end, with the data `s'` and the
result `r`. -/
inductive Section (code : Code S O B R) : B → S → S → R → Prop where
  | last {b : B} {s s' : S} {r : R} : code.step b s = (s', .inr r) → Section code b s s' r
  | more {b b' : B} {s s₁ s' : S} {r : R} :
      code.step b s = (s₁, .inl b') → Section code b' s₁ s' r → Section code b s s' r

/-- A call by itself. -/
inductive Does (code : Code S O B R) : O → S → S → R → Prop where
  | atOnce {o : O} {s : S} {r : R} : code.enter o = .inr r → Does code o s s r
  | locked {o : O} {b : B} {s s' : S} {r : R} :
      code.enter o = .inl b → Section code b s s' r → Does code o s s' r

inductive Stage (O R : Type) where
  | idle
  | called (o : O)
  | done (o : O) (r : R)

/-- The object, with each thread's call. -/
structure Object (T S G O R : Type) where
  data : S
  books : G
  stage : T → Stage O R

inductive Event (T I O R : Type) where
  | invoke (t : T) (i : I) (o : O)
  | act (t : T) (o : O) (r : R)
  | receive (t : T) (o : O) (r : R)

namespace Object

variable [DecidableEq T]

def goto (a : Object T S G O R) (t : T) (stage : Stage O R) : Object T S G O R :=
  { a with stage := fun u => if u = t then stage else a.stage u }

variable (a : Object T S G O R) (t : T) (stage : Stage O R)

@[simp] theorem goto_data : (a.goto t stage).data = a.data := rfl
@[simp] theorem goto_books : (a.goto t stage).books = a.books := rfl
@[simp] theorem goto_stage_self : (a.goto t stage).stage t = stage := if_pos rfl

theorem goto_stage_of_ne {a : Object T S G O R} {t u : T} {stage : Stage O R} (h : u ≠ t) :
    (a.goto t stage).stage u = a.stage u := if_neg h

/-- A thread that stays where it is. -/
theorem goto_stage : a.goto t (a.stage t) = a := by
  unfold goto
  congr 1
  funext u
  split
  · next heq => rw [heq]
  · rfl

def start (s : S) (g : G) : Object T S G O R := ⟨s, g, fun _ => .idle⟩

end Object

/-- One step of the object: a call acts on the data at once. -/
inductive Acts [DecidableEq T] (code : Code S O B R) (callers : Callers T G O R I) :
    Object T S G O R → Event T I O R → Object T S G O R → Prop where
  | invoke {a : Object T S G O R} {t : T} {i : I} {g : G} {o : O} :
      a.stage t = .idle → callers.invoke t i a.books = some (g, o) →
      Acts code callers a (.invoke t i o) ({ a with books := g }.goto t (.called o))
  | act {a : Object T S G O R} {t : T} {o : O} {s' : S} {r : R} :
      a.stage t = .called o → Does code o a.data s' r →
      Acts code callers a (.act t o r) ({ a with data := s' }.goto t (.done o r))
  | receive {a : Object T S G O R} {t : T} {o : O} {r : R} :
      a.stage t = .done o r →
      Acts code callers a (.receive t o r)
        ({ a with books := callers.receive t o r a.books }.goto t .idle)

/-! ## Small steps inside whole calls -/

/-- The step of a whole call that a small step shows. -/
def observe (code : Code S O B R) (callers : Callers T G O R I)
    (c : Config T (S × G) (Point O B R) Empty) : Label T I → Option (Event T I O R)
  | .ask t i =>
    match c.threads t with
    | .running .idle => (callers.invoke t i c.shared.2).map fun r => .invoke t i r.2
    | _ => none
  | .run t =>
    match c.threads t with
    | .running (.called o) =>
      match code.enter o with
      | .inl _ => none
      | .inr r => some (.act t o r)
    | .running (.inside o b) =>
      match (code.step b c.shared.1).2 with
      | .inl _ => none
      | .inr r => some (.act t o r)
    | .running (.returning o r) => some (.receive t o r)
    | _ => none
  | _ => none

/-- A point stands for a stage. Inside its critical section a call has not acted yet: from the data
`s` it goes on to what it does to the data `s₀`. -/
inductive Represents (code : Code S O B R) (s s₀ : S) : Point O B R → Stage O R → Prop where
  | idle : Represents code s s₀ .idle .idle
  | called {o : O} : Represents code s s₀ (.called o) (.called o)
  | locking {o : O} {b : B} :
      code.enter o = .inl b → Represents code s s₀ (.locking o b) (.called o)
  | inside {o : O} {b : B} :
      (∀ s' r, Section code b s s' r → Does code o s₀ s' r) →
      Represents code s s₀ (.inside o b) (.called o)
  | leaving {o : O} {r : R} : Represents code s s₀ (.leaving o r) (.done o r)
  | returning {o : O} {r : R} : Represents code s s₀ (.returning o r) (.done o r)

/-- The thread is in its critical section, and has not acted. -/
def Inside (c : Config T (S × G) (Point O B R) Empty) (t : T) : Prop :=
  ∃ o b, c.threads t = .running (.inside o b)

/-- The state of the program stands for that of the object. -/
structure Related (code : Code S O B R) (c : Config T (S × G) (Point O B R) Empty)
    (a : Object T S G O R) : Prop where
  books : c.shared.2 = a.books
  -- the data are those of the object, unless somebody is at work on them
  data : (∀ t, ¬ Inside c t) → c.shared.1 = a.data
  threads : ∀ t, ∃ l, c.threads t = .running l ∧ Represents code c.shared.1 a.data l (a.stage t)

section Simulation

variable {code : Code S O B R} {callers : Callers T G O R I}
  {c c' : Config T (S × G) (Point O B R) Empty} {a a' : Object T S G O R} {t : T}

/-- Only the owner of the mutex is in a critical section. -/
theorem Inside.owner (hin : Inside c t) (hex : Exclusive Point.holding c) : c.owner = some t := by
  obtain ⟨o, b, ht⟩ := hin
  exact (hex.of_running ht).1.mpr rfl

theorem Represents.of_not_inside {s s₀ s' s₀' : S} {l : Point O B R} {stage : Stage O R}
    (h : Represents code s s₀ l stage) (hl : ∀ o b, l ≠ .inside o b) :
    Represents code s' s₀' l stage := by
  cases h with
  | idle => exact .idle
  | called => exact .called
  | locking henter => exact .locking henter
  | inside => exact absurd rfl (hl _ _)
  | leaving => exact .leaving
  | returning => exact .returning

/-- Nobody else is in a critical section. -/
private theorem not_inside_of_owner (hex : Exclusive Point.holding c) (hown : c.owner = some t)
    {u : T} (hu : u ≠ t) : ¬ Inside c u := by
  intro hin
  exact hu (Option.some.inj ((hin.owner hex).symm.trans hown))

/-- A thread that is outside its critical section does not matter for who is inside one. -/
private theorem Related.data_eq (h : Related code c a) {l : Point O B R}
    (ht : c.threads t = .running l) (hl : ∀ o b, l ≠ .inside o b)
    (hnot : ∀ u, u ≠ t → ¬ Inside c u) : c.shared.1 = a.data := by
  refine h.data fun u hin => ?_
  by_cases hu : u = t
  · subst hu
    obtain ⟨o, b, hb⟩ := hin
    cases ht.symm.trans hb
    exact hl o b rfl
  · exact hnot u hu hin

/-- A thread whose stage is known is at one of the points that stand for it. -/
private theorem Related.of_running (h : Related code c a) {l : Point O B R}
    (ht : c.threads t = .running l) : Represents code c.shared.1 a.data l (a.stage t) := by
  obtain ⟨l', hl', hrep⟩ := h.threads t
  cases ht.symm.trans hl'
  exact hrep

variable [DecidableEq T]

/-- One thread moves: the others stand for what they stood for, when the data stay, or when none of
them is in its critical section. -/
private theorem Related.goto (h : Related code c a) {s : S × G} {owner : Option T} {s₀ : S} {g : G}
    {l : Point O B R} {stage : Stage O R} (hrep : Represents code s.1 s₀ l stage) (hbooks : s.2 = g)
    (hdata : (∀ u, u ≠ t → ¬ Inside c u) → (∀ o b, l ≠ .inside o b) → s.1 = s₀)
    (hothers : s.1 = c.shared.1 ∧ s₀ = a.data ∨ ∀ u, u ≠ t → ¬ Inside c u) :
    Related code ({ c with shared := s, owner := owner }.goto t (.running l))
      ({ a with data := s₀, books := g }.goto t stage) := by
  refine ⟨hbooks, fun hnot => hdata (fun u hu hin => hnot u ?_) fun o b heq => hnot t ?_, ?_⟩
  · obtain ⟨o, b, hub⟩ := hin
    exact ⟨o, b, (Config.goto_threads_of_ne hu).trans hub⟩
  · exact ⟨o, b, heq ▸ Config.goto_threads_self _ _ _⟩
  · intro u
    by_cases hu : u = t
    · subst hu
      rw [Object.goto_stage_self]
      exact ⟨l, Config.goto_threads_self _ _ _, hrep⟩
    obtain ⟨k, hk, hrepu⟩ := h.threads u
    rw [Object.goto_stage_of_ne hu]
    refine ⟨k, (Config.goto_threads_of_ne hu).trans hk, ?_⟩
    rcases hothers with ⟨hs, hs₀⟩ | hnot
    · simp only [Config.goto_shared, Object.goto_data, hs, hs₀]
      exact hrepu
    · exact hrepu.of_not_inside fun o b heq => hnot u hu ⟨o, b, heq ▸ hk⟩

/-- The same for a step that shows nothing. -/
private theorem Related.silent (h : Related code c a) {s : S} {owner : Option T}
    {l : Point O B R} (hrep : Represents code s a.data l (a.stage t))
    (hdata : (∀ u, u ≠ t → ¬ Inside c u) → (∀ o b, l ≠ .inside o b) → s = a.data)
    (hothers : s = c.shared.1 ∨ ∀ u, u ≠ t → ¬ Inside c u) :
    Related code ({ c with shared := (s, c.shared.2), owner := owner }.goto t (.running l)) a := by
  have hbooks : (s, c.shared.2).2 = a.books := h.books
  have hgoto : Related code ({ c with shared := (s, c.shared.2), owner }.goto t (.running l))
      ({ a with data := a.data, books := a.books }.goto t (a.stage t)) :=
    h.goto hrep hbooks hdata (hothers.imp_left fun hs => ⟨hs, rfl⟩)
  have hsame : ({ a with data := a.data, books := a.books }.goto t (a.stage t)) = a :=
    a.goto_stage t
  rwa [hsame] at hgoto

/-- **What a small step shows**: nothing, and the states stay related, or a step of the object. -/
theorem Related.step (h : Related code c a) (hex : Exclusive Point.holding c) {i : Label T I}
    (hstep : Step (program code callers) c i c') :
    (observe code callers c i = none ∧ Related code c' a) ∨
      ∃ e a', observe code callers c i = some e ∧ Acts code callers a e a' ∧
        Related code c' a' := by
  cases hstep with
  | @ask t l l' i s' f ht ha hf =>
    cases l with
    | idle =>
      have hrep := h.of_running ht
      generalize hstage : a.stage t = stage at hrep
      cases hrep
      cases ha
      obtain ⟨⟨g, o⟩, hinvoke, heq⟩ := Option.map_eq_some_iff.mp hf
      cases heq
      refine Or.inr ⟨.invoke t i o, _, by simp [observe, ht, hinvoke],
        .invoke hstage (h.books ▸ hinvoke), ?_⟩
      exact h.goto .called rfl (fun hnot _ => h.data_eq ht (by simp) hnot) (Or.inl ⟨rfl, rfl⟩)
    | _ => cases ha
  | @atomic t l f ht ha =>
    have hrep := h.of_running ht
    generalize hstage : a.stage t = stage at hrep
    cases hrep with
    | @called o =>
      cases ha
      have hdata := h.data_eq ht (by simp)
      cases henter : code.enter o with
      | inl b =>
        refine Or.inl ⟨by simp [observe, ht, henter], ?_⟩
        refine h.silent ?_ (fun hnot _ => hdata hnot) (Or.inl rfl)
        rw [hstage]
        exact .locking henter
      | inr r =>
        refine Or.inr ⟨.act t o r, _, by simp [observe, ht, henter],
          .act hstage (.atOnce henter), ?_⟩
        exact h.goto .returning h.books (fun hnot _ => hdata hnot) (Or.inl ⟨rfl, rfl⟩)
    | @inside o b hgoes =>
      cases ha
      have hin : Inside c t := ⟨o, b, ht⟩
      have hnot : ∀ u, u ≠ t → ¬ Inside c u :=
        fun u hu => not_inside_of_owner hex (hin.owner hex) hu
      obtain ⟨s', x, hcode⟩ : ∃ s' x, code.step b c.shared.1 = (s', x) := ⟨_, _, rfl⟩
      cases x with
      | inl b' =>
        refine Or.inl ⟨by simp [observe, ht, hcode], ?_⟩
        simp only [hcode]
        refine h.silent ?_ (fun _ hl => absurd rfl (hl o b')) (Or.inr hnot)
        rw [hstage]
        exact .inside fun s'' r hrest => hgoes s'' r (.more hcode hrest)
      | inr r =>
        refine Or.inr ⟨.act t o r, _, by simp [observe, ht, hcode],
          .act hstage (hgoes s' r (.last hcode)), ?_⟩
        simp only [hcode]
        exact h.goto .leaving h.books (fun _ _ => rfl) (Or.inr hnot)
    | @returning o r =>
      cases ha
      refine Or.inr ⟨.receive t o r, _, by simp [observe, ht], .receive hstage, ?_⟩
      refine h.goto .idle ?_ (fun hnot _ => h.data_eq ht (by simp) hnot) (Or.inl ⟨rfl, rfl⟩)
      simp only [h.books]
    | _ => cases ha
  | @timedLock t l got timedOut ht ha hfree =>
    have hrep := h.of_running ht
    generalize hstage : a.stage t = stage at hrep
    cases hrep with
    | @locking o b henter =>
      cases ha
      have hnot : ∀ u, ¬ Inside c u := fun u hin => by cases hfree.symm.trans (hin.owner hex)
      refine Or.inl ⟨by simp [observe, ht], ?_⟩
      refine h.silent ?_ (fun _ hl => absurd rfl (hl o b)) (Or.inl rfl)
      rw [hstage, h.data hnot]
      exact .inside fun s' r hrest => .locked henter hrest
    | _ => cases ha
  | @timedLockExpired t l got timedOut ht ha hheld =>
    have hrep := h.of_running ht
    cases l with
    | locking o b =>
      cases ha
      refine Or.inl ⟨rfl, ?_⟩
      exact h.silent hrep (fun hnot _ => h.data_eq ht (by simp) hnot) (Or.inl rfl)
    | _ => cases ha
  | @unlock t l next ht ha hown =>
    have hrep := h.of_running ht
    generalize hstage : a.stage t = stage at hrep
    cases hrep with
    | leaving =>
      cases ha
      refine Or.inl ⟨by simp [observe, ht], ?_⟩
      refine h.silent ?_ (fun hnot _ => h.data_eq ht (by simp) hnot) (Or.inl rfl)
      rw [hstage]
      exact .returning
    | _ => cases ha
  | notified ht =>
    obtain ⟨l, hl, -⟩ := h.threads _
    cases ht.symm.trans hl
  | relock ht =>
    obtain ⟨l, hl, -⟩ := h.threads _
    cases ht.symm.trans hl
  | timedOut ht =>
    obtain ⟨l, hl, -⟩ := h.threads _
    cases ht.symm.trans hl
  | spurious ht =>
    obtain ⟨l, hl, -⟩ := h.threads _
    cases ht.symm.trans hl
  | @tryLock t l _ _ _ ha => cases l <;> cases ha
  | @tryLockBusy t l _ _ _ ha => cases l <;> cases ha
  | @probe t l _ _ _ ha => cases l <;> cases ha
  | @wait t l _ _ _ _ ha => cases l <;> cases ha
  | @signalNobody t l _ _ _ ha => cases l <;> cases ha
  | @signal t u l _ _ _ ha => cases l <;> cases ha
  | @broadcast t l _ _ _ ha => cases l <;> cases ha
  | @drain t l _ _ _ ha => cases l <;> cases ha

omit [DecidableEq T] in
theorem related_start (s : S) (g : G) :
    Related code (start s g : Config T (S × G) (Point O B R) Empty) (Object.start s g) where
  books := rfl
  data _ := rfl
  threads _ := ⟨.idle, rfl, .idle⟩

/-- The events that the steps of a trace show, the last one first. -/
def observed (code : Code S O B R) (callers : Callers T G O R I)
    (tr : List (Config T (S × G) (Point O B R) Empty × Label T I)) : List (Event T I O R) :=
  tr.filterMap fun x => observe code callers x.1 x.2

/-- **Critical sections are atomic**: a run of small steps shows a run of whole calls. -/
theorem exists_run {s : S} {g : G}
    {tr : List (Config T (S × G) (Point O B R) Empty × Label T I)}
    (hrun : Run (Step (program code callers)) (start s g) tr c) :
    ∃ atr a, Run (Acts code callers) (Object.start s g) atr a ∧ Related code c a ∧
      atr.map Prod.snd = observed code callers tr := by
  induction hrun with
  | start => exact ⟨[], _, .start, related_start s g, rfl⟩
  | @next tr c c' i hprev hnext ih =>
    obtain ⟨atr, a, harun, hrel, hevents⟩ := ih
    have hex : Exclusive Point.holding c :=
      hprev.invariant' (exclusive_start s g) fun h hstep => h.step (disciplined code callers) hstep
    rcases hrel.step hex hnext with ⟨hnone, hrel'⟩ | ⟨e, a', hsome, hacts, hrel'⟩
    · refine ⟨atr, a, harun, hrel', ?_⟩
      simpa [observed, hnone] using hevents
    · refine ⟨(a, e) :: atr, a', harun.next hacts, hrel', ?_⟩
      simpa [observed, hsome] using hevents

end Simulation

/-! ## The calls of a run -/

namespace Event

/-- The call that acts. -/
def entry? : Event T I O R → Option (Entry T O R)
  | .act t o r => some ⟨t, o, r⟩
  | _ => none

/-- The thread that calls. -/
def caller : Event T I O R → T
  | .invoke t _ _ => t
  | .act t _ _ => t
  | .receive t _ _ => t

variable [DecidableEq T]

def invoked? (t : T) : Event T I O R → Option O
  | .invoke u _ o => if u = t then some o else none
  | _ => none

def acted? (t : T) : Event T I O R → Option (O × R)
  | .act u o r => if u = t then some (o, r) else none
  | _ => none

def received? (t : T) : Event T I O R → Option (O × R)
  | .receive u o r => if u = t then some (o, r) else none
  | _ => none

end Event

section Threads

variable [DecidableEq T] (t : T) (e : Event T I O R) (es : List (Event T I O R))

/-- What the thread has called, the last call first. -/
def invoked : List O := es.filterMap (Event.invoked? t)

/-- Which of its calls have acted, and what they returned when they did. -/
def acted : List (O × R) := es.filterMap (Event.acted? t)

/-- What it has got back. -/
def received : List (O × R) := es.filterMap (Event.received? t)

@[simp] theorem invoked_cons :
    invoked t (e :: es) = (e.invoked? t).toList ++ invoked t es := by
  cases h : e.invoked? t <;> simp [invoked, h]

@[simp] theorem acted_cons : acted t (e :: es) = (e.acted? t).toList ++ acted t es := by
  cases h : e.acted? t <;> simp [acted, h]

@[simp] theorem received_cons :
    received t (e :: es) = (e.received? t).toList ++ received t es := by
  cases h : e.received? t <;> simp [received, h]

end Threads

/-- The calls of the events in the order in which they act; the events are the last one first. -/
def history (es : List (Event T I O R)) : List (Entry T O R) := (es.filterMap Event.entry?).reverse

section Calls

variable [DecidableEq T] {code : Code S O B R} {callers : Callers T G O R I}
  {a₀ a a' : Object T S G O R} {atr : List (Object T S G O R × Event T I O R)}

/-- **The calls of a run are a history of the sequential object**, when an invariant makes a call do
what the sequential operation does. -/
theorem legal {apply : O → S → S × R} {J : Object T S G O R → Prop}
    (hrun : Run (Acts code callers) a₀ atr a) (hJ : Everywhere J atr a)
    (happly : ∀ {a t o s' r}, J a → a.stage t = .called o → Does code o a.data s' r →
      apply o a.data = (s', r)) :
    Legal apply a₀.data (history (atr.map Prod.snd)) a.data := by
  induction hrun with
  | start => exact .nil
  | @next atr a a' e hprev hnext ih =>
    have hbefore := (everywhere_cons.mp hJ).2
    have hlegal := ih hbefore
    cases hnext with
    | invoke => exact hlegal
    | receive => exact hlegal
    | @act t o s' r hstage hdoes =>
      have hcall : apply o a.data = (s', r) := happly hbefore.1 hstage hdoes
      have hmore := hlegal.concat (e := ⟨t, o, r⟩) hcall
      simpa [history, Event.entry?] using hmore

/-- What the thread's call is still to return. -/
def Stage.owed : Stage O R → List (O × R)
  | .done o r => [(o, r)]
  | _ => []

/-- What the thread's call is still to do. -/
def Stage.due : Stage O R → List O
  | .called o => [o]
  | _ => []

/-- The other threads stay where they are. -/
theorem Acts.stage_of_ne {e : Event T I O R} (h : Acts code callers a e a') {t : T}
    (ht : t ≠ e.caller) : a'.stage t = a.stage t := by
  cases h <;> exact Object.goto_stage_of_ne ht

/-- **A thread makes one call after the other**: each acts once, after its invocation, and then
returns what it did. -/
theorem calls_in_turn {s : S} {g : G} (hrun : Run (Acts code callers) (Object.start s g) atr a)
    (t : T) :
    invoked t (atr.map Prod.snd) = (a.stage t).due ++ (acted t (atr.map Prod.snd)).map Prod.fst ∧
      acted t (atr.map Prod.snd) = (a.stage t).owed ++ received t (atr.map Prod.snd) := by
  induction hrun with
  | start => exact ⟨rfl, rfl⟩
  | @next atr a a' e hprev hnext ih =>
    obtain ⟨hdue, howed⟩ := ih
    by_cases he : e.caller = t
    · -- the thread goes from one stage to the next
      cases hnext with
      | @invoke u _ _ _ hstage _ =>
        obtain rfl : u = t := he
        simp_all [Event.invoked?, Event.acted?, Event.received?, Stage.due, Stage.owed]
      | @act u _ _ _ hstage _ =>
        obtain rfl : u = t := he
        simp_all [Event.invoked?, Event.acted?, Event.received?, Stage.due, Stage.owed]
      | @receive u _ _ hstage =>
        obtain rfl : u = t := he
        simp_all [Event.invoked?, Event.acted?, Event.received?, Stage.due, Stage.owed]
    · rw [hnext.stage_of_ne (Ne.symm he)]
      cases e <;> simp_all [Event.caller, Event.invoked?, Event.acted?, Event.received?]

end Calls

/-! ## Every call ends -/

/-- How many steps a critical section has left. The step that ends one may leave more data for the
others to work on. -/
structure Measure (code : Code S O B R) where
  left : B → S → ℕ
  growth : ℕ
  more : ∀ {b b' s s'}, code.step b s = (s', .inl b') →
    left b' s' < left b s ∧ ∀ k, left k s' ≤ left k s
  last : ∀ {b s s' r}, code.step b s = (s', .inr r) → ∀ k, left k s' ≤ left k s + growth

section Ending

variable {code : Code S O B R} (m : Measure code)

/-- How many steps a thread has left, when there are `n` threads. -/
def Measure.point (n : ℕ) : Point O B R → S × G → ℕ
  | .idle, _ => 0
  | .returning _ _, _ => 1
  | .leaving _ _, _ => 2
  | .inside _ b, s => 3 + n * m.growth + m.left b s.1
  | .locking _ b, s => 4 + n * m.growth + m.left b s.1
  | .called o, s =>
    5 + (code.enter o).elim (fun b => n * m.growth + m.left b s.1) fun _ => 0

/-- What the data add to a section they add to every point. -/
theorem Measure.point_le {n rise : ℕ} {s s' : S × G}
    (h : ∀ b, m.left b s'.1 ≤ m.left b s.1 + rise) (l : Point O B R) :
    m.point n l s' ≤ m.point n l s + rise := by
  cases l with
  | idle => exact Nat.zero_le _
  | called o =>
    simp only [point]
    cases code.enter o with
    | inl b =>
      have := h b
      rw [Sum.elim_inl, Sum.elim_inl]
      omega
    | inr r => exact Nat.le_add_right _ _
  | locking o b =>
    have := h b
    simp only [point]
    omega
  | inside o b =>
    have := h b
    simp only [point]
    omega
  | leaving o r => exact Nat.le_add_right _ _
  | returning o r => exact Nat.le_add_right _ _

variable (callers : Callers T G O R I)

/-- No new call is made. -/
abbrev noInput (_ : I) : Bool := false

def Measure.potential (n : ℕ) : Potential (program code callers) noInput n where
  point := m.point n
  asleep _ := 0
  wake := 0
  falls := by
    intro t l l' s s' hgoes
    -- a step that does not touch the data
    have hsame : s'.1 = s.1 → m.point n l' s' < m.point n l s →
        (program code callers t l).rouses n = 0 →
        ∃ rise, (∀ k, m.point n k s' ≤ m.point n k s + rise) ∧
          m.point n l' s' + n * rise + (program code callers t l).rouses n * 0 <
            m.point n l s := by
      intro hs hlt hrouses
      refine ⟨0, m.point_le fun b => by rw [hs]; rfl, by omega⟩
    cases l with
    | idle =>
      obtain ⟨i, hi⟩ := hgoes
      cases hi
    | called o =>
      cases hgoes
      refine hsame rfl ?_ rfl
      cases henter : code.enter o with
      | inl b =>
        simp only [Measure.point, henter, Sum.elim_inl]
        omega
      | inr r =>
        simp only [Measure.point, henter, Sum.elim_inr]
        omega
    | locking o b =>
      obtain ⟨rfl, rfl | rfl⟩ := hgoes
      · exact hsame rfl (by simp only [Measure.point]; omega) rfl
      · exact hsame rfl (by simp only [Measure.point]; omega) rfl
    | inside o b =>
      obtain ⟨s₁, x, hcode⟩ : ∃ s₁ x, code.step b s.1 = (s₁, x) := ⟨_, _, rfl⟩
      simp only [program, Action.unprompted, Action.Goes, hcode, Prod.mk.injEq] at hgoes
      obtain ⟨rfl, rfl⟩ := hgoes
      cases x with
      | inl b' =>
        obtain ⟨hlt, hle⟩ := m.more hcode
        refine ⟨0, m.point_le hle, ?_⟩
        simp only [Measure.point]
        omega
      | inr r =>
        refine ⟨m.growth, m.point_le (m.last hcode), ?_⟩
        simp only [Measure.point]
        omega
    | leaving o r =>
      obtain ⟨rfl, rfl⟩ := hgoes
      exact hsame rfl (by simp only [Measure.point]; omega) rfl
    | returning o r =>
      cases hgoes
      exact hsame rfl (by simp only [Measure.point]; omega) rfl
  sleeps := by
    intro t l cv
    exact cv.elim
  wakes cv := cv.elim

section Rest

variable [DecidableEq T] {callers} {s : S} {g : G}
  {c c' : Config T (S × G) (Point O B R) Empty}
  {tr tr' : List (Config T (S × G) (Point O B R) Empty × Label T I)}

/-- Without a new call, the program is at rest when the mutex is free and no thread is in a call. -/
theorem atRest_iff (hreach : Run (Step (program code callers)) (start s g) tr c) :
    AtRest (program code callers) noInput c ↔
      c.owner = none ∧ ∀ t, c.threads t = .running .idle := by
  obtain ⟨atr, a, -, hrel, -⟩ := exists_run hreach
  constructor
  · intro h
    refine ⟨h.free, fun t => ?_⟩
    obtain ⟨l, hl, -⟩ := hrel.threads t
    rcases h.thread t with ⟨l', hl', hnot | ⟨cv, -⟩⟩ | ⟨cv, -⟩
    · cases hl'.symm.trans hl
      cases l with
      | idle => exact hl
      | _ => exact absurd trivial hnot
    · exact cv.elim
    · exact cv.elim
  · rintro ⟨hfree, hidle⟩
    refine ⟨hfree, fun t => Or.inl ⟨.idle, hidle t, Or.inl ?_⟩⟩
    rintro ⟨i, r, hi, -⟩
    cases hi

/-- **Every call ends**: from every state that a run reaches, the threads can take a bounded number
of steps without a new call, in whatever order, and they can take one as long as a thread is in a
call or the mutex is held. -/
theorem bounded_without_calls (m : Measure code)
    (hrun : Run (Step (program code callers)) (start s g) tr c) :
    ∃ n, ∀ tr' c', Run (Step (program code callers)) c tr' c' →
      Throughout (Unprompted noInput) tr' →
      tr'.length ≤ n ∧ ((c'.owner = none ∧ ∀ t, c'.threads t = .running .idle) ↔
        ∀ i c'', Unprompted noInput c' i → ¬ Step (program code callers) c' i c'') := by
  let ts : Finset T := (tr.map fun x => x.2.mover).toFinset
  refine ⟨(m.potential callers ts.card).total ts c, fun tr' c' hrun' hown => ⟨?_, ?_⟩⟩
  · -- whoever has not moved yet is idle
    have hby : ∀ t, t ∉ ts → Bystander (program code callers) noInput c t := by
      intro t ht
      refine ⟨.idle, ?_, ?_⟩
      · refine (threads_of_run hrun fun x hx heq => ht ?_).trans rfl
        exact List.mem_toFinset.mpr (List.mem_map.mpr ⟨x, hx, heq⟩)
      · rintro s ⟨i, r, hi, -⟩
        cases hi
    have hlength := ((m.potential callers ts.card).length_le le_rfl hby hrun' hown).1
    omega
  · have hreach := hrun.append hrun'
    have hex : Exclusive Point.holding c' :=
      hreach.invariant' (exclusive_start s g) fun h hstep => h.step (disciplined code callers) hstep
    rw [← atRest_iff hreach]
    refine atRest_iff_stuck hex (disciplined code callers) fun t l hl hholding => ?_
    cases l with
    | inside => trivial
    | leaving => trivial
    | _ => cases hholding

end Rest

end Ending

end ShmemUtils.Library.Locked
