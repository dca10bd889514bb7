import ShmemUtils.Library.Runs

/-!
# Linearization points

A concurrent object is explained by an atomic one when some of its steps are declared to be whole
operations: such a step does to the abstract state what its operation does, with the result that the
operation has, and all other steps leave the abstract state alone. The declared steps of a run, in
their order, are then a legal history of the atomic object. When moreover a caller's outcome is
settled by its declared step and by nothing else, a caller with an outcome has exactly one.
-/

namespace ShmemUtils.Library

/-- One operation of a sequential history: who called it, what it was, and what it returned. -/
structure Entry (K O R : Type*) where
  caller : K
  op : O
  result : R
deriving DecidableEq

variable {σ ι S K O R : Type*} {step : σ → ι → σ → Prop} {apply : O → S → S × R}

/-- A sequential history of the atomic object, from one state to another. -/
inductive Legal (apply : O → S → S × R) : S → List (Entry K O R) → S → Prop where
  | nil {s : S} : Legal apply s [] s
  | cons {s s' last : S} {e : Entry K O R} {es : List (Entry K O R)} :
      apply e.op s = (s', e.result) → Legal apply s' es last → Legal apply s (e :: es) last

/-- A history goes on with one more operation. -/
theorem Legal.concat {s s' last : S} {e : Entry K O R} {es : List (Entry K O R)}
    (h : Legal apply s es last) (he : apply e.op last = (s', e.result)) :
    Legal apply s (es ++ [e]) s' := by
  induction h with
  | nil => exact .cons he .nil
  | cons happly _ ih => exact .cons happly (ih he)

/-- The linearization points of a transition system over an atomic object. -/
structure Points (step : σ → ι → σ → Prop) (apply : O → S → S × R) (K : Type*) where
  abs : σ → S
  -- the operation that a step stands for, if it stands for one
  commit : σ → ι → Option (Entry K O R)
  silent : ∀ {c i c'}, step c i c' → commit c i = none → abs c' = abs c
  effect : ∀ {c i c' e}, step c i c' → commit c i = some e → apply e.op (abs c) = (abs c', e.result)

namespace Points

variable (P : Points step apply K) {c₀ c c' : σ} {tr : List (σ × ι)} {k : K}

/-- The operations that the steps of a trace stand for, the first one first. -/
def history (tr : List (σ × ι)) : List (Entry K O R) :=
  (tr.filterMap fun x => P.commit x.1 x.2).reverse

theorem history_of_silent {i : ι} (h : P.commit c i = none) :
    P.history ((c, i) :: tr) = P.history tr := by
  simp [history, h]

theorem history_of_commit {i : ι} {e : Entry K O R} (h : P.commit c i = some e) :
    P.history ((c, i) :: tr) = P.history tr ++ [e] := by
  simp [history, h]

/-- **A run is a history of the atomic object.** -/
theorem legal (hrun : Run step c₀ tr c) : Legal apply (P.abs c₀) (P.history tr) (P.abs c) := by
  induction hrun with
  | start => exact .nil
  | @next tr c c' i hprev hnext ih =>
    cases hcommit : P.commit c i with
    | none =>
      rw [P.history_of_silent hcommit, P.silent hnext hcommit]
      exact ih
    | some e =>
      rw [P.history_of_commit hcommit]
      exact ih.concat (P.effect hnext hcommit)

/-- No step of the trace is an operation of the caller. -/
def Absent (tr : List (σ × ι)) (k : K) : Prop :=
  ∀ x ∈ tr, ∀ e, P.commit x.1 x.2 = some e → e.caller ≠ k

theorem absent_cons {i : ι} : P.Absent ((c, i) :: tr) k ↔
    (∀ e, P.commit c i = some e → e.caller ≠ k) ∧ P.Absent tr k :=
  List.forall_mem_cons

/-- Exactly one step of the trace, from `c` to `c'`, is an operation of the caller, with the
result `r`. -/
def Once (tr : List (σ × ι)) (k : K) (r : R) : Prop :=
  ∃ after c i c' before op, tr = after ++ (c, i) :: before ∧ step c i c' ∧
    P.commit c i = some ⟨k, op, r⟩ ∧ P.Absent after k ∧ P.Absent before k

theorem mem_history {e : Entry K O R} :
    e ∈ P.history tr ↔ ∃ x ∈ tr, P.commit x.1 x.2 = some e := by
  simp [history]

section Filter

variable [DecidableEq K]

/-- Without an operation of the caller there is none in the history. -/
theorem filter_history_of_absent (h : P.Absent tr k) :
    ((P.history tr).filter fun e => e.caller = k) = [] := by
  refine List.filter_eq_nil_iff.mpr fun e he => ?_
  obtain ⟨x, hx, hcommit⟩ := P.mem_history.mp he
  simpa using h x hx e hcommit

/-- With exactly one there is exactly one. -/
theorem Once.filter_history {P : Points step apply K} {r : R} (h : P.Once tr k r) :
    ∃ op, (∃ c i c', step c i c' ∧ P.commit c i = some ⟨k, op, r⟩) ∧
      ((P.history tr).filter fun e => e.caller = k) = [⟨k, op, r⟩] := by
  obtain ⟨after, c, i, c', before, op, rfl, hstep, hcommit, hafter, hbefore⟩ := h
  refine ⟨op, ⟨c, i, c', hstep, hcommit⟩, ?_⟩
  have hsplit : P.history (after ++ (c, i) :: before) =
      P.history before ++ ⟨k, op, r⟩ :: P.history after := by
    simp [history, hcommit]
  rw [hsplit, List.filter_append, P.filter_history_of_absent hbefore, List.filter_cons_of_pos,
    P.filter_history_of_absent hafter]
  · rfl
  · simp

end Filter

/-- The caller's outcome is settled by its operation, and by nothing else. -/
structure Settles (k : K) (outcome : σ → Option R) : Prop where
  keeps : ∀ {c i c'}, step c i c' → (∀ e, P.commit c i = some e → e.caller ≠ k) →
    outcome c' = outcome c
  settles : ∀ {c i c' e}, step c i c' → P.commit c i = some e → e.caller = k →
    outcome c = none ∧ outcome c' = some e.result

variable {P}

/-- **A caller with an outcome has taken effect exactly once**, and one without has not. -/
theorem Settles.once {outcome : σ → Option R} (h : P.Settles k outcome)
    (hrun : Run step c₀ tr c) (hstart : outcome c₀ = none) :
    (outcome c = none → P.Absent tr k) ∧
      ∀ r, outcome c = some r → P.Once tr k r := by
  induction hrun with
  | start =>
    constructor
    · intro _ x hx
      cases hx
    · intro r hr
      cases hstart.symm.trans hr
  | @next tr c c' i hprev hnext ih =>
    by_cases hcaller : ∃ e, P.commit c i = some e ∧ e.caller = k
    · obtain ⟨e, hcommit, rfl⟩ := hcaller
      obtain ⟨hbefore, hafter⟩ := h.settles hnext hcommit rfl
      refine ⟨fun hnone => ?_, fun r hr => ?_⟩
      · rw [hnone] at hafter
        cases hafter
      · cases hr.symm.trans hafter
        refine ⟨[], c, i, c', tr, e.op, rfl, hnext, hcommit, fun x hx => ?_, ih.1 hbefore⟩
        cases hx
    · have hother : ∀ e, P.commit c i = some e → e.caller ≠ k :=
        fun e hcommit heq => hcaller ⟨e, hcommit, heq⟩
      rw [h.keeps hnext hother]
      refine ⟨fun hnone => P.absent_cons.mpr ⟨hother, ih.1 hnone⟩, fun r hr => ?_⟩
      obtain ⟨after, c₁, i₁, c₂, before, op, rfl, hstep, hcommit, habsent, hrest⟩ := ih.2 r hr
      exact ⟨(c, i) :: after, c₁, i₁, c₂, before, op, rfl, hstep, hcommit,
        P.absent_cons.mpr ⟨hother, habsent⟩, hrest⟩

end Points

end ShmemUtils.Library
