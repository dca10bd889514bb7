import Mathlib.Data.List.Basic

/-!
# Labelled runs

A run keeps its trace: the steps that were taken, each with the state before it. Properties of a
run are then of two kinds, those of its states (`Everywhere`) and those of its steps
(`Throughout`), and the two rules below go from steps to states.
-/

namespace ShmemUtils.Library

variable {σ ι : Type*} {step : σ → ι → σ → Prop} {c₀ c : σ} {tr : List (σ × ι)}

/-- The runs from `c₀`. The trace lists the steps taken, the last one first. -/
inductive Run (step : σ → ι → σ → Prop) (c₀ : σ) : List (σ × ι) → σ → Prop where
  | start : Run step c₀ [] c₀
  | next {tr : List (σ × ι)} {c c' : σ} {i : ι} :
      Run step c₀ tr c → step c i c' → Run step c₀ ((c, i) :: tr) c'

/-- Every state of the run that took the steps `tr` and is now in `c` has the property. -/
def Everywhere (P : σ → Prop) (tr : List (σ × ι)) (c : σ) : Prop := P c ∧ ∀ x ∈ tr, P x.1

/-- Every step of the run meets the condition, on the state before it and its label. -/
def Throughout (ok : σ → ι → Prop) (tr : List (σ × ι)) : Prop := ∀ x ∈ tr, ok x.1 x.2

theorem throughout_nil (ok : σ → ι → Prop) : Throughout ok [] := by
  intro x hx
  cases hx

theorem throughout_cons {ok : σ → ι → Prop} {c : σ} {i : ι} :
    Throughout ok ((c, i) :: tr) ↔ ok c i ∧ Throughout ok tr :=
  List.forall_mem_cons

theorem everywhere_cons {P : σ → Prop} {c c' : σ} {i : ι} :
    Everywhere P ((c, i) :: tr) c' ↔ P c' ∧ Everywhere P tr c :=
  and_congr_right fun _ => List.forall_mem_cons

/-- A run is continued by another one. -/
theorem Run.append {tr' : List (σ × ι)} {c' : σ} (hrun : Run step c₀ tr c)
    (hrest : Run step c tr' c') : Run step c₀ (tr' ++ tr) c' := by
  induction hrest with
  | start => exact hrun
  | next _ hnext ih => exact ih.next hnext

/-- What comes before a step of a run is a run. -/
theorem Run.before {x : σ × ι} {late early : List (σ × ι)}
    (hrun : Run step c₀ (late ++ x :: early) c) : Run step c₀ early x.1 := by
  induction late generalizing c with
  | nil =>
    cases hrun with
    | next hprev _ => exact hprev
  | cons y late ih =>
    cases hrun with
    | next hprev _ => exact ih hprev

/-- **The invariant rule**: what holds at the start, and is kept by the steps that meet the
condition, holds at the end of every run of such steps. -/
theorem Run.invariant {I : σ → Prop} {ok : σ → ι → Prop} (hrun : Run step c₀ tr c)
    (hstart : I c₀) (hstep : ∀ {c i c'}, I c → ok c i → step c i c' → I c')
    (hok : Throughout ok tr) : I c := by
  induction hrun with
  | start => exact hstart
  | next _ hnext ih =>
    obtain ⟨hi, htail⟩ := throughout_cons.mp hok
    exact hstep (ih htail) hi hnext

/-- The same in every state of the run. -/
theorem Run.everywhere {I : σ → Prop} {ok : σ → ι → Prop} (hrun : Run step c₀ tr c)
    (hstart : I c₀) (hstep : ∀ {c i c'}, I c → ok c i → step c i c' → I c')
    (hok : Throughout ok tr) : Everywhere I tr c := by
  induction hrun with
  | start => exact ⟨hstart, fun x hx => by cases hx⟩
  | next _ hnext ih =>
    obtain ⟨hi, htail⟩ := throughout_cons.mp hok
    have hprev := ih htail
    exact everywhere_cons.mpr ⟨hstep hprev.1 hi hnext, hprev⟩

/-- An invariant of all steps needs no condition. -/
theorem Run.invariant' {I : σ → Prop} (hrun : Run step c₀ tr c) (hstart : I c₀)
    (hstep : ∀ {c i c'}, I c → step c i c' → I c') : I c :=
  hrun.invariant hstart (fun hI (_ : True) h => hstep hI h) fun _ _ => trivial

theorem Run.everywhere' {I : σ → Prop} (hrun : Run step c₀ tr c) (hstart : I c₀)
    (hstep : ∀ {c i c'}, I c → step c i c' → I c') : Everywhere I tr c :=
  hrun.everywhere hstart (fun hI (_ : True) h => hstep hI h) fun _ _ => trivial

/-- **The exactness rule**: when the condition on a step decides whether the property survives it,
a run has the property everywhere if and only if all its steps meet the condition. -/
theorem Run.everywhere_iff {J P : σ → Prop} {ok : σ → ι → Prop} (hrun : Run step c₀ tr c)
    (hJ : J c₀) (hJstep : ∀ {c i c'}, J c → step c i c' → J c') (hstart : P c₀)
    (hstep : ∀ {c i c'}, J c → P c → step c i c' → (P c' ↔ ok c i)) :
    Everywhere P tr c ↔ Throughout ok tr := by
  induction hrun with
  | start => exact ⟨fun _ => throughout_nil ok, fun _ => ⟨hstart, fun x hx => by cases hx⟩⟩
  | @next tr c c' i hprev hnext ih =>
    have hJc : J c := hprev.invariant' hJ hJstep
    rw [everywhere_cons, throughout_cons, ih]
    constructor
    · rintro ⟨hP', hok⟩
      exact ⟨(hstep hJc (ih.mpr hok).1 hnext).mp hP', hok⟩
    · rintro ⟨hi, hok⟩
      exact ⟨(hstep hJc (ih.mpr hok).1 hnext).mpr hi, hok⟩

/-- The same for a property of steps: when the condition decides it from the states that a run goes
through, the steps of the run have the property if and only if they all meet the condition. -/
theorem Run.throughout_iff {J : σ → Prop} {Q : σ → ι → σ → Prop} {ok : σ → ι → Prop}
    (hrun : Run step c₀ tr c) (hJ : Everywhere J tr c)
    (hstep : ∀ {c i c'}, J c → step c i c' → (Q c i c' ↔ ok c i)) :
    Throughout (fun c i => ∀ c', step c i c' → Q c i c') tr ↔ Throughout ok tr := by
  induction hrun with
  | start => exact ⟨fun _ => throughout_nil ok, fun _ => throughout_nil _⟩
  | @next tr c c' i hprev hnext ih =>
    have hJtail := (everywhere_cons.mp hJ).2
    rw [throughout_cons, throughout_cons, ih hJtail]
    refine and_congr_left fun _ => ⟨fun hQ => ?_, fun hi c'' h => ?_⟩
    · exact (hstep hJtail.1 hnext).mp (hQ c' hnext)
    · exact (hstep hJtail.1 h).mpr hi

/-- **The simulation rule**: when every step is matched by a run of another system in which the same
is observed, so is every run. -/
theorem Run.simulated {σ' ι' O : Type*} {step' : σ' → ι' → σ' → Prop} {a₀ : σ'} {P : σ → Prop}
    {R : σ → σ' → Prop} (obs : σ × ι → Option O) (obs' : σ' × ι' → Option O)
    (hrun : Run step c₀ tr c) (hP : Everywhere P tr c) (hstart : R c₀ a₀)
    (hstep : ∀ {c i c' a}, R c a → P c' → step c i c' →
      ∃ atr a', Run step' a atr a' ∧ R c' a' ∧ atr.filterMap obs' = (obs (c, i)).toList) :
    ∃ atr a, Run step' a₀ atr a ∧ R c a ∧ atr.filterMap obs' = tr.filterMap obs := by
  induction hrun with
  | start => exact ⟨[], a₀, .start, hstart, rfl⟩
  | @next tr c c' i _ hnext ih =>
    obtain ⟨hPc', hPtail⟩ := everywhere_cons.mp hP
    obtain ⟨atr, a, harun, hR, hobs⟩ := ih hPtail
    obtain ⟨atr', a', harest, hR', hobs'⟩ := hstep hR hPc' hnext
    refine ⟨atr' ++ atr, a', harun.append harest, hR', ?_⟩
    rw [List.filterMap_append, hobs, hobs', List.filterMap_cons]
    cases obs (c, i) <;> rfl

/-- **The ranking rule**: when a step that meets the condition, keeps the invariant and lowers the
rank can be taken as long as the goal is not reached, every run can be continued to the goal. -/
theorem Run.reaches {J goal : σ → Prop} {ok : σ → ι → Prop} (rank : σ → ℕ)
    (hstep : ∀ {c}, J c → ¬ goal c → ∃ i c', ok c i ∧ step c i c' ∧ J c' ∧ rank c' < rank c)
    (hrun : Run step c₀ tr c) (hok : Throughout ok tr) (hJ : J c) :
    ∃ tr' c', Run step c₀ tr' c' ∧ Throughout ok tr' ∧ tr <:+ tr' ∧ J c' ∧ goal c' := by
  -- by induction on a bound of the rank
  obtain ⟨n, hn⟩ : ∃ n, rank c < n := ⟨_, Nat.lt_succ_self _⟩
  induction n generalizing tr c with
  | zero => exact absurd hn (Nat.not_lt_zero _)
  | succ n ih =>
    by_cases hgoal : goal c
    · exact ⟨tr, c, hrun, hok, List.suffix_refl tr, hJ, hgoal⟩
    · obtain ⟨i, c', hi, hnext, hJ', hlt⟩ := hstep hJ hgoal
      obtain ⟨tr', c'', hrun', hok', hsuffix, hlast⟩ := ih (hrun.next hnext)
        (throughout_cons.mpr ⟨hi, hok⟩) hJ' (Nat.lt_of_lt_of_le hlt (Nat.le_of_lt_succ hn))
      exact ⟨tr', c'', hrun', hok', (List.suffix_cons _ tr).trans hsuffix, hlast⟩

end ShmemUtils.Library
