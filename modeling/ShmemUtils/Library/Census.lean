import ShmemUtils.Library.Outline

/-!
# The threads at points of a kind

A list of the threads that are at points of some kind, in a program with any number of threads. One
step adds the thread that moves to the list, or takes it out, and its length is then a count that an
invariant can relate to the shared data.
-/

namespace ShmemUtils.Library.Monitor

variable {T S L C I : Type}

/-- Thread `t` is at a point of the kind `K`. -/
def At (K : T → L → Prop) (c : Config T S L C) (t : T) : Prop :=
  ∃ l, c.threads t = .running l ∧ K t l

/-- The list is that of the threads at points of the kind `K`. -/
structure Census (K : T → L → Prop) (c : Config T S L C) (ts : List T) : Prop where
  nodup : ts.Nodup
  mem : ∀ t, t ∈ ts ↔ At K c t

variable {K : T → L → Prop} {c c' : Config T S L C} {t : T} {ts : List T}

theorem At.others [DecidableEq T] [DecidableEq C] {P : T → L → Action S L C I} {i : Label T I}
    (hstep : Step P c i c') (ht : t ≠ i.mover) : At K c' t ↔ At K c t := by
  unfold At
  rw [hstep.others ht]

namespace Census

theorem empty (h : ∀ t, ¬ At K c t) : Census K c [] where
  nodup := List.nodup_nil
  mem t := iff_of_false List.not_mem_nil (h t)

theorem eq_nil (h : Census K c ts) (hnot : ∀ t, ¬ At K c t) : ts = [] :=
  List.eq_nil_iff_forall_not_mem.mpr fun t ht => hnot t ((h.mem t).mp ht)

/-- Whoever leaves was in the list. -/
theorem length_erase [DecidableEq T] (h : Census K c ts) (ht : At K c t) :
    (ts.erase t).length + 1 = ts.length :=
  List.length_erase_add_one ((h.mem t).mpr ht)

section Steps

variable [DecidableEq T] [DecidableEq C] {P : T → L → Action S L C I} {i : Label T I}

/-- The thread that moves stays in the list, or out of it. -/
theorem same (h : Census K c ts) (hstep : Step P c i c')
    (hmover : At K c' i.mover ↔ At K c i.mover) : Census K c' ts := by
  refine ⟨h.nodup, fun t => (h.mem t).trans ?_⟩
  by_cases ht : t = i.mover
  · rw [ht]
    exact hmover.symm
  · exact (At.others hstep ht).symm

theorem enter (h : Census K c ts) (hstep : Step P c i c') (hbefore : ¬ At K c i.mover)
    (hafter : At K c' i.mover) : Census K c' (i.mover :: ts) := by
  refine ⟨List.nodup_cons.mpr ⟨fun hmem => hbefore ((h.mem _).mp hmem), h.nodup⟩, fun t => ?_⟩
  rw [List.mem_cons, h.mem]
  by_cases ht : t = i.mover
  · rw [ht]
    exact ⟨fun _ => hafter, fun _ => Or.inl rfl⟩
  · exact (or_iff_right ht).trans (At.others hstep ht).symm

theorem leave (h : Census K c ts) (hstep : Step P c i c') (hafter : ¬ At K c' i.mover) :
    Census K c' (ts.erase i.mover) := by
  refine ⟨h.nodup.erase _, fun t => ?_⟩
  rw [h.nodup.mem_erase_iff, h.mem]
  by_cases ht : t = i.mover
  · rw [ht]
    exact ⟨fun hboth => absurd rfl hboth.1, fun hat => absurd hat hafter⟩
  · exact (and_iff_right ht).trans (At.others hstep ht).symm

end Steps

end Census

end ShmemUtils.Library.Monitor
