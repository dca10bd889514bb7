import Mathlib.Data.List.Basic

/-!
# Lists kept in order

Where a monotone test changes along an ordered list, and what inserting at or removing from such
a point does to the order. Stated for an arbitrary relation, so that the lemmas serve a list sorted
by one key and searched by a coarser one.
-/

namespace ShmemUtils.Library

variable {α : Type*} {r : α → α → Prop}

/-- A test that never becomes true again along the list cuts the list in two. -/
theorem exists_partition (p : α → Bool) :
    ∀ {l : List α}, l.Pairwise (fun a b => p b = true → p a = true) →
      ∃ lo hi, l = lo ++ hi ∧ (∀ x ∈ lo, p x = true) ∧ ∀ x ∈ hi, p x = false
  | [], _ => ⟨[], [], rfl, by simp, by simp⟩
  | a :: l, h => by
    obtain ⟨hhead, htail⟩ := List.pairwise_cons.mp h
    cases ha : p a with
    | true =>
      obtain ⟨lo, hi, rfl, hlo, hhi⟩ := exists_partition p htail
      refine ⟨a :: lo, hi, rfl, ?_, hhi⟩
      intro x hx
      rcases List.mem_cons.mp hx with rfl | hx
      · exact ha
      · exact hlo x hx
    | false =>
      refine ⟨[], a :: l, rfl, by simp, ?_⟩
      intro x hx
      rcases List.mem_cons.mp hx with rfl | hx
      · exact ha
      · exact Bool.eq_false_iff.mpr fun hpx => by simp [hhead x hx hpx] at ha

/-- Inserting between two halves keeps the order when the new element fits on both sides. -/
theorem pairwise_insert {lo hi : List α} {x : α} (h : (lo ++ hi).Pairwise r)
    (hlo : ∀ y ∈ lo, r y x) (hhi : ∀ y ∈ hi, r x y) : (lo ++ x :: hi).Pairwise r := by
  obtain ⟨h₁, h₂, h₃⟩ := List.pairwise_append.mp h
  refine List.pairwise_append.mpr ⟨h₁, List.pairwise_cons.mpr ⟨hhi, h₂⟩, ?_⟩
  intro a ha b hb
  rcases List.mem_cons.mp hb with rfl | hb
  · exact hlo a ha
  · exact h₃ a ha b hb

/-- A symmetric relation does not care where the new element is put. -/
theorem pairwise_insert_of_symm (hsymm : ∀ {a b}, r a b → r b a) {lo hi : List α} {x : α}
    (h : (lo ++ hi).Pairwise r) (hx : ∀ y ∈ lo ++ hi, r x y) : (lo ++ x :: hi).Pairwise r :=
  pairwise_insert h (fun y hy => hsymm (hx y (List.mem_append_left _ hy)))
    fun y hy => hx y (List.mem_append_right _ hy)

theorem insertIdx_append_length (lo hi : List α) (x : α) :
    (lo ++ hi).insertIdx lo.length x = lo ++ x :: hi := by
  induction lo with
  | nil => simp
  | cons a lo ih => simp [ih]

theorem eraseIdx_append_length (lo hi : List α) (x : α) :
    (lo ++ x :: hi).eraseIdx lo.length = lo ++ hi := by
  induction lo with
  | nil => simp
  | cons a lo ih => simp [ih]

/-! ## Stable sorting -/

section Stable

variable {le : α → α → Bool} {l l' : List α}

/-- The two elements are in order both ways. -/
def tied (le : α → α → Bool) (x y : α) : Bool := le x y && le y x

theorem tied_iff {x y : α} : tied le x y = true ↔ le x y = true ∧ le y x = true :=
  Bool.and_eq_true_iff

variable (htrans : ∀ a b c, le a b = true → le b c = true → le a c = true)
  (htotal : ∀ a b, (le a b || le b a) = true)

include htotal

theorem tied_self (a : α) : tied le a a = true := by
  have ha := htotal a a
  rw [Bool.or_self] at ha
  exact tied_iff.mpr ⟨ha, ha⟩

/-- Sorted lists that list every class of tied elements in the same order are equal. -/
theorem eq_of_filter_tied (hl : l.Pairwise fun a b => le a b = true)
    (hl' : l'.Pairwise fun a b => le a b = true)
    (hclass : ∀ x, l.filter (tied le x) = l'.filter (tied le x)) : l = l' := by
  induction l generalizing l' with
  | nil =>
    cases l' with
    | nil => rfl
    | cons b l' => simpa [tied_self htotal] using hclass b
  | cons a l ih =>
    cases l' with
    | nil => simpa [tied_self htotal] using hclass a
    | cons b l' =>
      obtain ⟨ha, hrest⟩ := List.pairwise_cons.mp hl
      obtain ⟨hb, hrest'⟩ := List.pairwise_cons.mp hl'
      -- both heads are least, and each stands in the other list
      have hba : le b a = true := by
        have hmem : a ∈ (b :: l').filter (tied le a) := by
          rw [← hclass a]
          simp [tied_self htotal]
        rcases List.mem_cons.mp (List.mem_filter.mp hmem).1 with rfl | hmem
        · exact (tied_iff.mp (tied_self htotal a)).1
        · exact hb a hmem
      have hab : le a b = true := by
        have hmem : b ∈ (a :: l).filter (tied le b) := by
          rw [hclass b]
          simp [tied_self htotal]
        rcases List.mem_cons.mp (List.mem_filter.mp hmem).1 with rfl | hmem
        · exact (tied_iff.mp (tied_self htotal b)).1
        · exact ha b hmem
      have heq : a = b := by
        have hfilter := hclass a
        rw [List.filter_cons_of_pos (tied_self htotal a),
          List.filter_cons_of_pos (tied_iff.mpr ⟨hab, hba⟩)] at hfilter
        exact (List.cons.inj hfilter).1
      subst heq
      rw [ih hrest hrest' fun x => ?_]
      have hfilter := hclass x
      rw [List.filter_cons, List.filter_cons] at hfilter
      split at hfilter
      · exact (List.cons.inj hfilter).2
      · exact hfilter

include htrans

/-- A merge sort lists every class of tied elements in the order in which it finds them. -/
theorem filter_tied_mergeSort (l : List α) (x : α) :
    (l.mergeSort le).filter (tied le x) = l.filter (tied le x) := by
  have hclass : (l.filter (tied le x)).Pairwise fun a b => le a b = true := by
    refine List.pairwise_iff_forall_sublist.mpr fun {a b} hsub => ?_
    have ha := (List.mem_filter.mp (hsub.subset (by simp : a ∈ [a, b]))).2
    have hb := (List.mem_filter.mp (hsub.subset (by simp : b ∈ [a, b]))).2
    exact htrans a x b (tied_iff.mp ha).2 (tied_iff.mp hb).1
  have hsub := (List.sublist_mergeSort htrans htotal hclass List.filter_sublist).filter (tied le x)
  rw [List.filter_filter, List.filter_congr fun y _ => Bool.and_self _] at hsub
  exact (hsub.eq_of_length ((List.mergeSort_perm l le).filter _).length_eq.symm).symm

/-- **What a stable sort is**: sorted, and with every class of tied elements in its order. -/
theorem eq_mergeSort (hl' : l'.Pairwise fun a b => le a b = true)
    (hclass : ∀ x, l'.filter (tied le x) = l.filter (tied le x)) : l' = l.mergeSort le := by
  refine eq_of_filter_tied htotal hl' (List.pairwise_mergeSort htrans htotal l) fun x => ?_
  rw [hclass, filter_tied_mergeSort htrans htotal]

/-- Sorting a part first makes no difference. -/
theorem mergeSort_append_mergeSort (l r : List α) :
    (l.mergeSort le ++ r).mergeSort le = (l ++ r).mergeSort le := by
  refine eq_mergeSort htrans htotal (List.pairwise_mergeSort htrans htotal _) fun x => ?_
  rw [filter_tied_mergeSort htrans htotal, List.filter_append, List.filter_append,
    filter_tied_mergeSort htrans htotal]

end Stable

end ShmemUtils.Library
