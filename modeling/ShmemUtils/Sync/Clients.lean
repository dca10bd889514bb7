import ShmemUtils.Library.Resource

/-!
# Clients of the mutex and its condition variables

`src/mutex.rs` and `src/condvar.rs` for arbitrary client code: any number of threads, of any
processes, call `lock`, `try_lock` and its timed variants, use the data through the guard, wait with
a predicate, signal, broadcast and drop the guard. A client is given by the call that it makes at
each of its points.

The waits are loops around `pthread_cond_wait` that test their predicate before each turn; a timed
wait tests it once more when its time has run out. `lock` is an attempt without an end.
-/

namespace ShmemUtils.Sync

open ShmemUtils.Library ShmemUtils.Library.Monitor

variable {T D K C : Type}

/-- The calls of `Mutex`, `MutexGuard` and `Condvar`, and where the client goes on. -/
inductive Call (D K C : Type) where
  | lock (next : K)
  | tryLock (got busy : K)
  -- `try_lock_for`, `try_lock_until`
  | tryLockUntil (got timedOut : K)
  -- `Deref` and `DerefMut` of the guard
  | access (f : D → D × K)
  -- `Drop` of the guard
  | unlock (next : K)
  | wait (cv : C) (isReady : D → Bool) (next : K)
  -- `wait_for`, `wait_until`
  | waitUntil (cv : C) (isReady : D → Bool) (ok err : K)
  | signal (cv : C) (next : K)
  | broadcast (cv : C) (next : K)
  | done

/-- Where a thread is: at a point of its client, or inside of the wait that is called there. -/
inductive Pc (K : Type) where
  | client (k : K)
  | sleep (k : K)
  -- out of time
  | late (k : K)
deriving DecidableEq

abbrev SyncAction (D K C : Type) : Type := Action D (Pc K) C Empty

def Call.action (k : K) : Call D K C → SyncAction D K C
  | .lock next => .timedLock (.client next) (.client k)
  | .tryLock got busy => .tryLock (.client got) (.client busy)
  | .tryLockUntil got timedOut => .timedLock (.client got) (.client timedOut)
  | .access f => .atomic fun d => ((f d).1, .client (f d).2)
  | .unlock next => .unlock (.client next)
  | .wait _ isReady next => .atomic fun d => (d, if isReady d then .client next else .sleep k)
  | .waitUntil _ isReady ok _ => .atomic fun d => (d, if isReady d then .client ok else .sleep k)
  | .signal cv next => .signal cv (.client next)
  | .broadcast cv next => .broadcast cv (.client next)
  | .done => .halt

/-- `pthread_cond_wait` and `pthread_cond_timedwait`, with the loop around them. -/
def Call.sleep (k : K) : Call D K C → SyncAction D K C
  | .wait cv _ _ => .wait cv (.client k) none
  | .waitUntil cv _ _ _ => .wait cv (.client k) (some (.late k))
  | _ => .halt

/-- The test after `ETIMEDOUT`. -/
def Call.late : Call D K C → SyncAction D K C
  | .waitUntil _ isReady ok err => .atomic fun d => (d, .client (if isReady d then ok else err))
  | _ => .halt

def program (code : T → K → Call D K C) (t : T) : Pc K → SyncAction D K C
  | .client k => (code t k).action k
  | .sleep k => (code t k).sleep k
  | .late k => (code t k).late

/-! ## Guards -/

/-- The thread has a guard at its point. -/
def Pc.holding (guarded : K → Bool) : Pc K → Bool
  | .client k => guarded k
  | _ => true

@[simp] theorem Pc.holding_client (guarded : K → Bool) (k : K) :
    (Pc.client k).holding guarded = guarded k := rfl

@[simp] theorem Pc.holding_sleep (guarded : K → Bool) (k : K) :
    (Pc.sleep k).holding guarded = true := rfl

@[simp] theorem Pc.holding_late (guarded : K → Bool) (k : K) :
    (Pc.late k).holding guarded = true := rfl

/-- What the types say of a call with or without a guard; a thread that has the guard does not
lock once more, which would wait for itself. -/
def Call.Typed (guarded : K → Bool) (held : Bool) : Call D K C → Prop
  | .lock next => held = false ∧ guarded next = true
  | .tryLock got busy => held = false ∧ guarded got = true ∧ guarded busy = false
  | .tryLockUntil got timedOut => held = false ∧ guarded got = true ∧ guarded timedOut = false
  | .access f => held = true ∧ ∀ d, guarded (f d).2 = true
  | .unlock next => held = true ∧ guarded next = false
  | .wait _ _ next => held = true ∧ guarded next = true
  | .waitUntil _ _ ok err => held = true ∧ guarded ok = true ∧ guarded err = true
  | .signal _ next => guarded next = held
  | .broadcast _ next => guarded next = held
  | .done => True

/-- The client code uses its guards as the types say. -/
def Typed (code : T → K → Call D K C) (guarded : K → Bool) : Prop :=
  ∀ t k, (code t k).Typed guarded (guarded k)

variable {code : T → K → Call D K C} {guarded : K → Bool} {k : K} {call : Call D K C}

theorem Call.action_respects (h : call.Typed guarded (guarded k)) :
    (call.action k).Respects (Pc.holding guarded) (guarded k) := by
  cases call with
  | lock next => exact ⟨h.1, h.2, h.1⟩
  | access f => exact fun d => (h.2 d).trans h.1.symm
  | wait cv isReady next =>
    intro d
    dsimp only
    split
    · exact h.2.trans h.1.symm
    · exact h.1.symm
  | waitUntil cv isReady ok err =>
    intro d
    dsimp only
    split
    · exact h.2.1.trans h.1.symm
    · exact h.1.symm
  | _ => exact h

theorem Call.sleep_respects (h : call.Typed guarded (guarded k)) :
    (call.sleep k).Respects (Pc.holding guarded) true := by
  cases call with
  | wait cv isReady next => exact ⟨rfl, h.1, by simp⟩
  | waitUntil cv isReady ok err => exact ⟨rfl, h.1, by simp [Pc.holding]⟩
  | _ => trivial

theorem Call.late_respects (h : call.Typed guarded (guarded k)) :
    call.late.Respects (Pc.holding guarded) true := by
  cases call with
  | waitUntil cv isReady ok err =>
    intro d
    dsimp only
    split
    · exact h.2.1
    · exact h.2.2
  | _ => trivial

theorem Typed.disciplined (h : Typed code guarded) :
    Disciplined (program code) (Pc.holding guarded) := by
  intro t pc
  cases pc with
  | client k => exact Call.action_respects (h t k)
  | sleep k => exact Call.sleep_respects (h t k)
  | late k => exact Call.late_respects (h t k)

/-! ## The rules -/

/-- The predicate of a wait. -/
def Call.isReady? : Call D K C → Option (C × (D → Bool))
  | .wait cv isReady _ => some (cv, isReady)
  | .waitUntil cv isReady _ _ => some (cv, isReady)
  | _ => none

/-- The rule of a call, for data that satisfy `J` while nobody has the guard: `A` is what is known
with the guard at each point, and `pre` at the point of the call. After a wait the data are any that
satisfy `J` and the predicate. -/
def Call.Correct (guarded : K → Bool) (J : D → Prop) (A : K → D → Prop) (pre : D → Prop) :
    Call D K C → Prop
  | .lock next => ∀ d, J d → A next d
  | .tryLock got _ => ∀ d, J d → A got d
  | .tryLockUntil got _ => ∀ d, J d → A got d
  | .access f => ∀ d, pre d → A (f d).2 (f d).1
  | .unlock _ => ∀ d, pre d → J d
  | .wait _ isReady next => (∀ d, pre d → isReady d = false → J d) ∧
      ∀ d, pre d ∨ J d → isReady d = true → A next d
  | .waitUntil _ isReady ok err => (∀ d, pre d → isReady d = false → J d) ∧
      (∀ d, pre d ∨ J d → isReady d = true → A ok d) ∧ ∀ d, J d → isReady d = false → A err d
  | .signal _ next => guarded next = true → ∀ d, pre d → A next d
  | .broadcast _ next => guarded next = true → ∀ d, pre d → A next d
  | .done => True

/-- The client code is verified by the rules. -/
def Verified (code : T → K → Call D K C) (guarded : K → Bool) (J : D → Prop)
    (A : T → K → D → Prop) : Prop :=
  ∀ t k, (code t k).Correct guarded J (A t) (A t k)

/-- What is known at a point that has the guard, those inside of waits included. -/
def known (code : T → K → Call D K C) (J : D → Prop) (A : T → K → D → Prop) (t : T) :
    Pc K → D → Prop
  | .client k, d => A t k d ∨ (code t k).isReady?.isSome = true ∧ J d
  | .sleep k, d => J d ∧ ∀ x ∈ (code t k).isReady?, x.2 d = false
  | .late _, d => J d

section Rules

variable {J : D → Prop} {A : T → K → D → Prop} {t : T} {d d' : D} {l' : Pc K}

/-- Going on in the client with the guard. -/
theorem inside_client {k' : K} (hk : guarded k' = true) (h : A t k' d) :
    if (Pc.client k').holding guarded = true then known code J A t (.client k') d else J d := by
  rw [Pc.holding_client, if_pos hk]
  exact Or.inl h

/-- Going to sleep for what is not ready. -/
theorem inside_sleep {x : C × (D → Bool)} (hx : (code t k).isReady? = some x) (hJ : J d)
    (hready : x.2 d = false) :
    if (Pc.sleep k).holding guarded = true then known code J A t (.sleep k) d else J d := by
  rw [Pc.holding_sleep, if_pos rfl]
  refine ⟨hJ, fun y hy => ?_⟩
  cases hx.symm.trans hy
  exact hready

theorem Call.action_inside (hcode : code t k = call) (htyped : call.Typed guarded true)
    (hcorrect : call.Correct guarded J (A t) (A t k))
    (hknown : known code J A t (.client k) d) (hgoes : (call.action k).Goes d l' d') :
    if l'.holding guarded = true then known code J A t l' d' else J d' := by
  rw [known, hcode] at hknown
  cases call with
  | lock next => cases htyped.1
  | tryLock got busy => cases htyped.1
  | tryLockUntil got timedOut => cases htyped.1
  | access f =>
    obtain ⟨rfl, rfl⟩ := Prod.mk.inj hgoes
    have hpre := hknown.resolve_right fun h => by cases h.1
    exact inside_client (htyped.2 d) (hcorrect d hpre)
  | unlock next =>
    obtain ⟨rfl, rfl⟩ := hgoes
    have hpre := hknown.resolve_right fun h => by cases h.1
    rw [Pc.holding_client, if_neg (by simp [htyped.2])]
    exact hcorrect _ hpre
  | wait cv isReady next =>
    obtain ⟨rfl, rfl⟩ := Prod.mk.inj hgoes
    have hpre : A t k d ∨ J d := hknown.imp_right And.right
    cases hready : isReady d with
    | true =>
      rw [if_pos rfl]
      exact inside_client htyped.2 (hcorrect.2 d hpre hready)
    | false =>
      rw [if_neg Bool.false_ne_true]
      exact inside_sleep (by rw [hcode]; rfl)
        (hpre.elim (fun h => hcorrect.1 d h hready) id) hready
  | waitUntil cv isReady ok err =>
    obtain ⟨rfl, rfl⟩ := Prod.mk.inj hgoes
    have hpre : A t k d ∨ J d := hknown.imp_right And.right
    cases hready : isReady d with
    | true =>
      rw [if_pos rfl]
      exact inside_client htyped.2.1 (hcorrect.2.1 d hpre hready)
    | false =>
      rw [if_neg Bool.false_ne_true]
      exact inside_sleep (by rw [hcode]; rfl)
        (hpre.elim (fun h => hcorrect.1 d h hready) id) hready
  | signal cv next =>
    obtain ⟨rfl, rfl⟩ := hgoes
    have hpre := hknown.resolve_right fun h => by cases h.1
    exact inside_client htyped (hcorrect htyped _ hpre)
  | broadcast cv next =>
    obtain ⟨rfl, rfl⟩ := hgoes
    have hpre := hknown.resolve_right fun h => by cases h.1
    exact inside_client htyped (hcorrect htyped _ hpre)
  | done => exact hgoes.elim

theorem Call.action_outside (htyped : call.Typed guarded false)
    (hcorrect : call.Correct guarded J (A t) (A t k)) (hk : guarded k = false)
    (hgoes : (call.action k).Goes d l' d') :
    d' = d ∧ (Pc.holding guarded l' = true → J d → known code J A t l' d) := by
  cases call with
  | lock next =>
    obtain ⟨rfl, rfl | rfl⟩ := hgoes
    · exact ⟨rfl, fun _ hJ => Or.inl (hcorrect _ hJ)⟩
    · exact ⟨rfl, fun h => by cases hk.symm.trans h⟩
  | tryLock got busy =>
    obtain ⟨rfl, rfl | rfl⟩ := hgoes
    · exact ⟨rfl, fun _ hJ => Or.inl (hcorrect _ hJ)⟩
    · exact ⟨rfl, fun h => by cases htyped.2.2.symm.trans h⟩
  | tryLockUntil got timedOut =>
    obtain ⟨rfl, rfl | rfl⟩ := hgoes
    · exact ⟨rfl, fun _ hJ => Or.inl (hcorrect _ hJ)⟩
    · exact ⟨rfl, fun h => by cases htyped.2.2.symm.trans h⟩
  | access f => cases htyped.1
  | unlock next => cases htyped.1
  | wait cv isReady next => cases htyped.1
  | waitUntil cv isReady ok err => cases htyped.1
  | signal cv next =>
    obtain ⟨rfl, rfl⟩ := hgoes
    exact ⟨rfl, fun h => by cases htyped.symm.trans h⟩
  | broadcast cv next =>
    obtain ⟨rfl, rfl⟩ := hgoes
    exact ⟨rfl, fun h => by cases htyped.symm.trans h⟩
  | done => exact hgoes.elim

theorem Call.late_inside (htyped : call.Typed guarded (guarded k))
    (hcorrect : call.Correct guarded J (A t) (A t k)) (hJ : J d) (hgoes : call.late.Goes d l' d') :
    if l'.holding guarded = true then known code J A t l' d' else J d' := by
  cases call with
  | waitUntil cv isReady ok err =>
    obtain ⟨rfl, rfl⟩ := Prod.mk.inj hgoes
    cases hready : isReady d with
    | true => exact inside_client htyped.2.1 (hcorrect.2.1 d (Or.inr hJ) hready)
    | false => exact inside_client htyped.2.2 (hcorrect.2.2 d hJ hready)
  | _ => exact hgoes.elim

/-- A wait goes to sleep at its own sleeping point, and wakes up at its client's or late. -/
theorem program_wait {l next : Pc K} {cv : C} {late : Option (Pc K)}
    (h : program code t l = .wait cv next late) :
    ∃ k isReady, l = .sleep k ∧ (code t k).isReady? = some (cv, isReady) ∧ next = .client k ∧
      ∀ l' ∈ late, l' = .late k := by
  cases l with
  | client k =>
    simp only [program] at h
    cases hcode : code t k <;> rw [hcode] at h <;> cases h
  | sleep k =>
    simp only [program] at h
    cases hcode : code t k with
    | wait cv' isReady next' =>
      rw [hcode] at h
      cases h
      exact ⟨k, isReady, rfl, by rw [hcode]; rfl, rfl, by simp⟩
    | waitUntil cv' isReady ok err =>
      rw [hcode] at h
      cases h
      exact ⟨k, isReady, rfl, by rw [hcode]; rfl, rfl, by simp⟩
    | _ =>
      rw [hcode] at h
      cases h
  | late k =>
    simp only [program] at h
    cases hcode : code t k <;> rw [hcode] at h <;> cases h

/-- Verified client code keeps its invariant as a resource of the mutex. -/
def Verified.resource (hV : Verified code guarded J A) (hT : Typed code guarded) :
    Resource (program code) (Pc.holding guarded) where
  invariant := J
  assertion := known code J A
  inside := by
    intro t l d l' d' hl hknown hgoes
    cases l with
    | client k =>
      have htyped := hT t k
      rw [show guarded k = true from hl] at htyped
      exact Call.action_inside rfl htyped (hV t k) hknown hgoes
    | sleep k =>
      simp only [program] at hgoes
      cases hcode : code t k <;> rw [hcode] at hgoes <;> exact hgoes.elim
    | late k => exact Call.late_inside (hT t k) (hV t k) hknown hgoes
  outside := by
    intro t l d l' d' hl hgoes
    cases l with
    | client k =>
      have htyped := hT t k
      rw [show guarded k = false from hl] at htyped
      exact Call.action_outside htyped (hV t k) hl hgoes
    | sleep k => cases hl
    | late k => cases hl
  sleeps := by
    intro t l d cv next late ha hknown
    obtain ⟨k, isReady, rfl, -⟩ := program_wait ha
    exact hknown.1
  wakes := by
    intro t l d cv next late l' ha hl' hJ
    obtain ⟨k, isReady, rfl, hready, rfl, hlate⟩ := program_wait ha
    rcases hl' with rfl | hl'
    · exact Or.inr ⟨by rw [hready]; rfl, hJ⟩
    · rw [hlate l' hl']
      exact hJ

end Rules

/-! ## Runs of clients -/

abbrev State (T D K C : Type) : Type := Config T D (Pc K) C

/-- All threads are at their first points, and nobody has a guard. -/
def initial (d₀ : D) (start : T → K) : State T D K C where
  shared := d₀
  owner := none
  waiters := fun _ => []
  waiting := []
  threads := fun t => .running (.client (start t))

section Runs

variable [DecidableEq T] [DecidableEq C] {J : D → Prop} {A : T → K → D → Prop} {d₀ : D}
  {start : T → K} {c : State T D K C} {tr : List (State T D K C × Label T Empty)}

omit [DecidableEq T] [DecidableEq C] in
theorem kept_initial (hT : Typed code guarded) (hV : Verified code guarded J A) (hJ : J d₀)
    (hstart : ∀ t, guarded (start t) = false) :
    Resource.Kept (hV.resource hT) (initial d₀ start) where
  exclusive t := by
    refine ⟨?_, fun cv hcv => by cases hcv⟩
    simp [initial, hstart t]
  asleep := by
    constructor
    · intro t cv next late ht
      cases ht
    · intro t l' ht
      cases ht
  holds := by
    refine ⟨fun _ => hJ, ?_⟩
    intro t l ht hl
    cases ht
    cases (hstart t).symm.trans hl

/-- Only the thread with the guard changes the data. -/
theorem owner_of_change (hV : Verified code guarded J A) (hT : Typed code guarded)
    (hkept : Resource.Kept (hV.resource hT) c) {c' : State T D K C} {i : Label T Empty}
    (hstep : Step (program code) c i c') (hne : c'.shared ≠ c.shared) : c.owner = some i.mover := by
  rcases hstep.moves with ⟨l, l', hl, -, hgoes⟩ | ⟨hsame, -⟩
  · refine (hkept.exclusive.of_running hl).1.mpr ?_
    by_contra hholding
    exact hne ((hV.resource hT).outside (Bool.eq_false_iff.mpr hholding) hgoes).1
  · exact absurd hsame hne

end Runs

/-! ## A handshake -/

inductive HandshakePc where
  | start
  | held
  | notify
  | drop
  | stop
deriving DecidableEq

/-- One thread waits for a flag, and another sets it and broadcasts. -/
def handshake (waiter : Bool) : HandshakePc → Call Bool HandshakePc Unit
  | .start => .lock .held
  | .held => if waiter then .wait () id .drop else .access fun _ => (true, .notify)
  | .notify => .broadcast () .drop
  | .drop => .unlock .stop
  | .stop => .done

def HandshakePc.hasGuard : HandshakePc → Bool
  | .start => false
  | .stop => false
  | _ => true

/-- After its wait the waiter knows that the flag is set. -/
def HandshakePc.knows (waiter : Bool) (k : HandshakePc) (flag : Bool) : Prop :=
  waiter = true → k ≠ .held → flag = true

theorem handshake_typed : Typed handshake HandshakePc.hasGuard := by
  intro waiter k
  cases waiter <;> cases k <;>
    simp [handshake, Call.Typed, HandshakePc.hasGuard]

theorem handshake_verified :
    Verified handshake HandshakePc.hasGuard (fun _ => True) HandshakePc.knows := by
  intro waiter k
  cases waiter <;> cases k <;> simp [handshake, Call.Correct, HandshakePc.knows]

end ShmemUtils.Sync
