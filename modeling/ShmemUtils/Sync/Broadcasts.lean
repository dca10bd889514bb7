import ShmemUtils.Sync.Clients

/-!
# Clients that broadcast

When nobody sleeps through what it waits for: every client that may make a predicate true owes a
broadcast on its condition variable until it has made one, and neither waits nor ends with a debt.
-/

namespace ShmemUtils.Sync

open ShmemUtils.Library ShmemUtils.Library.Monitor

variable {T D K C : Type}

/-- Somebody waits on `cv` for `isReady`. -/
def Awaited (code : T → K → Call D K C) (cv : C) (isReady : D → Bool) : Prop :=
  ∃ t k, (code t k).isReady? = some (cv, isReady)

/-- What a call does to the debts: it keeps them, a broadcast pays one, and an access that makes
true what is awaited makes one. -/
def Call.Pays (owes : K → C → Prop) (awaited : C → (D → Bool) → Prop) (mine : C → Prop)
    (pre : D → Prop) : Call D K C → Prop
  | .lock next => ∀ cv, mine cv → owes next cv
  | .tryLock got busy => ∀ cv, mine cv → owes got cv ∧ owes busy cv
  | .tryLockUntil got timedOut => ∀ cv, mine cv → owes got cv ∧ owes timedOut cv
  | .access f => ∀ d, (∀ cv, mine cv → owes (f d).2 cv) ∧
      (pre d → ∀ cv isReady, awaited cv isReady → isReady d = false → isReady (f d).1 = true →
        owes (f d).2 cv)
  | .unlock next => ∀ cv, mine cv → owes next cv
  | .wait _ _ _ => ∀ cv, ¬ mine cv
  | .waitUntil _ _ _ _ => ∀ cv, ¬ mine cv
  | .signal _ next => ∀ cv, mine cv → owes next cv
  | .broadcast cv next => ∀ cv', cv' ≠ cv → mine cv' → owes next cv'
  | .done => ∀ cv, ¬ mine cv

/-- The client code pays its debts. -/
def Paying (code : T → K → Call D K C) (A : T → K → D → Prop) (owes : T → K → C → Prop) : Prop :=
  ∀ t k, (code t k).Pays (owes t) (Awaited code) (owes t k) (A t k)

/-- The debts of a program point. -/
def Pc.owes (owes : K → C → Prop) : Pc K → C → Prop
  | .client k, cv => owes k cv
  | _, _ => False

/-- What a sleeper that goes on at a point waits for. -/
def wants (code : T → K → Call D K C) (t : T) : Pc K → D → Prop
  | .client k, d => ∃ x ∈ (code t k).isReady?, x.2 d = true
  | _, _ => False

variable {code : T → K → Call D K C} {guarded : K → Bool} {J : D → Prop} {A : T → K → D → Prop}
  {owes : T → K → C → Prop} {t : T} {k : K} {call : Call D K C} {d d' : D} {l' : Pc K}

theorem Call.keeps_debts (hpays : call.Pays (owes t) (Awaited code) (owes t k) (A t k))
    (hgoes : (call.action k).Goes d l' d') {cv : C} (howes : owes t k cv)
    (hbroadcast : ∀ next, call.action k ≠ .broadcast cv next) : l'.owes (owes t) cv := by
  cases call with
  | lock next =>
    obtain ⟨-, rfl | rfl⟩ := hgoes
    · exact hpays cv howes
    · exact howes
  | tryLock got busy =>
    obtain ⟨-, rfl | rfl⟩ := hgoes
    · exact (hpays cv howes).1
    · exact (hpays cv howes).2
  | tryLockUntil got timedOut =>
    obtain ⟨-, rfl | rfl⟩ := hgoes
    · exact (hpays cv howes).1
    · exact (hpays cv howes).2
  | access f =>
    obtain ⟨-, rfl⟩ := Prod.mk.inj hgoes
    exact (hpays d).1 cv howes
  | unlock next =>
    obtain ⟨-, rfl⟩ := hgoes
    exact hpays cv howes
  | wait cv' isReady next => exact absurd howes (hpays cv)
  | waitUntil cv' isReady ok err => exact absurd howes (hpays cv)
  | signal cv' next =>
    obtain ⟨-, rfl⟩ := hgoes
    exact hpays cv howes
  | broadcast cv' next =>
    obtain ⟨-, rfl⟩ := hgoes
    refine hpays cv (fun heq => ?_) howes
    subst heq
    exact hbroadcast _ rfl
  | done => exact hgoes.elim

/-- Only an access changes the data. -/
theorem Call.access_of_change (hgoes : (call.action k).Goes d l' d') (hne : d' ≠ d) :
    ∃ f, call = .access f ∧ f d = (d', (f d).2) ∧ l' = .client (f d).2 := by
  cases call with
  | access f =>
    obtain ⟨rfl, rfl⟩ := Prod.mk.inj hgoes
    exact ⟨f, rfl, rfl, rfl⟩
  | wait cv isReady next =>
    obtain ⟨rfl, -⟩ := Prod.mk.inj hgoes
    exact absurd rfl hne
  | waitUntil cv isReady ok err =>
    obtain ⟨rfl, -⟩ := Prod.mk.inj hgoes
    exact absurd rfl hne
  | done => exact hgoes.elim
  | _ => exact absurd hgoes.1 hne

theorem Call.late_still (hgoes : call.late.Goes d l' d') : d' = d := by
  cases call with
  | waitUntil cv isReady ok err => exact (Prod.mk.inj hgoes).1.symm
  | _ => exact hgoes.elim

theorem program_sleep_stuck (hgoes : (program code t (.sleep k)).Goes d l' d') : False := by
  simp only [program] at hgoes
  cases hcode : code t k <;> rw [hcode] at hgoes <;> exact hgoes

/-- Where the data change, the client knows what it knows at its access. -/
theorem access_of_goes (hT : Typed code guarded) {l : Pc K}
    (hknown : l.holding guarded = true → known code J A t l d)
    (hgoes : (program code t l).Goes d l' d') (hne : d' ≠ d) :
    ∃ k f, code t k = .access f ∧ A t k d ∧ f d = (d', (f d).2) ∧ l' = .client (f d).2 := by
  cases l with
  | client k =>
    obtain ⟨f, hcode, hf, rfl⟩ := Call.access_of_change hgoes hne
    have htyped := hT t k
    rw [hcode] at htyped
    have hpre := hknown htyped.1
    rw [known, hcode] at hpre
    have hclient := hpre.resolve_right fun h => by cases h.1
    exact ⟨k, f, hcode, hclient, hf, rfl⟩
  | sleep k => exact (program_sleep_stuck hgoes).elim
  | late k => exact absurd (Call.late_still hgoes) hne

def Paying.debts (hP : Paying code A owes) (hT : Typed code guarded)
    (hV : Verified code guarded J A) : Debts (hV.resource hT) where
  wants := wants code
  owes t := Pc.owes (owes t)
  keeps := by
    intro t l d l' d' cv hgoes howes hbroadcast
    cases l with
    | client k => exact Call.keeps_debts (hP t k) hgoes howes hbroadcast
    | sleep k => exact howes.elim
    | late k => exact howes.elim
  raises := by
    intro t l d l' d' u l₀ cv next late hknown hgoes ha hbefore hafter
    obtain ⟨k₀, isReady, -, hready, rfl, -⟩ := program_wait ha
    obtain ⟨x, hx, htrue⟩ := hafter
    cases hready.symm.trans hx
    have hfalse : isReady d = false := by
      refine Bool.eq_false_iff.mpr fun h => hbefore ⟨_, hready, h⟩
    have hne : d' ≠ d := by
      rintro rfl
      cases hfalse.symm.trans htrue
    obtain ⟨k, f, hcode, hpre, hf, rfl⟩ := access_of_goes hT hknown hgoes hne
    have hpays := hP t k
    rw [hcode] at hpays
    refine (hpays d).2 hpre cv isReady ⟨u, k₀, hready⟩ hfalse ?_
    rw [hf]
    exact htrue
  sleeps := by
    intro t l d cv next late ha hknown
    obtain ⟨k, isReady, rfl, hready, rfl, -⟩ := program_wait ha
    refine ⟨?_, fun _ => id⟩
    rintro ⟨x, hx, htrue⟩
    cases (hknown.2 x hx).symm.trans htrue

/-! ## Runs of clients that broadcast -/

section Runs

variable [DecidableEq T] [DecidableEq C] {d₀ : D} {start : T → K} {c : State T D K C}
  {tr : List (State T D K C × Label T Empty)}

/-- A thread is registered on a condition variable, inside a wait for something. -/
def WaitsFor (code : T → K → Call D K C) (c : State T D K C) (t : T) (cv : C) (isReady : D → Bool) :
    Prop :=
  ∃ k late, c.threads t = .blocked cv (.client k) late ∧ c.Registered cv t ∧
    (code t k).isReady? = some (cv, isReady)

end Runs

/-- The setter owes a broadcast from its access on. -/
def HandshakePc.debt (waiter : Bool) (k : HandshakePc) (_ : Unit) : Prop :=
  waiter = false ∧ k = .notify

theorem handshake_paying : Paying handshake HandshakePc.knows HandshakePc.debt := by
  intro waiter k
  cases waiter <;> cases k <;> simp [handshake, Call.Pays, HandshakePc.debt]

end ShmemUtils.Sync
