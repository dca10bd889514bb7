import Mathlib

/-!
# Spans and tilings

Half-open spans of natural numbers, and lists of spans that tile an initial segment `[0, n)`.

A list of spans is measured by its *cover*: the number of its spans that contain a position.
Concatenation adds covers, a permutation keeps them, and cutting a span in two keeps them, so a
tiling (`Tiles n l`: every position below `n` is covered once, every other one never) is carried
through arbitrary cutting, joining and moving of spans by arithmetic alone. Bounds, disjointness
and the number of spans are read back from the cover at the end.
-/

namespace ShmemUtils.Library

/-- The half-open span `[start, start + len)`. -/
structure Span where
  start : ℕ
  len : ℕ
deriving DecidableEq, Repr

namespace Span

/-- The first position after the span. -/
def stop (s : Span) : ℕ := s.start + s.len

/-- Position `i` lies in the span. -/
def Contains (s : Span) (i : ℕ) : Prop := s.start ≤ i ∧ i < s.stop

instance (s : Span) (i : ℕ) : Decidable (s.Contains i) :=
  inferInstanceAs (Decidable (_ ∧ _))

/-- The two spans share no position: one ends before the other begins. -/
def Apart (s t : Span) : Prop := s.stop ≤ t.start ∨ t.stop ≤ s.start

instance (s t : Span) : Decidable (s.Apart t) :=
  inferInstanceAs (Decidable (_ ∨ _))

/-- One of the two spans ends exactly where the other begins. -/
def Adjacent (s t : Span) : Prop := s.stop = t.start ∨ t.stop = s.start

instance (s t : Span) : Decidable (s.Adjacent t) :=
  inferInstanceAs (Decidable (_ ∨ _))

theorem Apart.symm {s t : Span} (h : s.Apart t) : t.Apart s := Or.symm h

theorem Adjacent.symm {s t : Span} (h : s.Adjacent t) : t.Adjacent s := Or.symm h

/-- Two non-empty spans that overlap share one of their two first positions. -/
theorem exists_contains_of_not_apart {s t : Span} (hs : 0 < s.len) (ht : 0 < t.len)
    (h : ¬ s.Apart t) : ∃ i, s.Contains i ∧ t.Contains i := by
  simp only [Apart, stop, not_or, not_le] at h
  -- the later of the two beginnings
  refine ⟨max s.start t.start, ?_, ?_⟩ <;> simp only [Contains, stop] <;> omega

theorem Apart.not_contains {s t : Span} (h : s.Apart t) {i : ℕ} (hs : s.Contains i) :
    ¬ t.Contains i := by
  simp only [Apart, Contains, stop] at *
  omega

end Span

/-! ## The cover of a list of spans -/

/-- How many spans of the list contain position `i`. -/
def cover (l : List Span) (i : ℕ) : ℕ := l.countP (fun s => decide (s.Contains i))

@[simp] theorem cover_nil (i : ℕ) : cover [] i = 0 := rfl

theorem cover_cons (s : Span) (l : List Span) (i : ℕ) :
    cover (s :: l) i = cover l i + if s.Contains i then 1 else 0 := by
  simp only [cover, List.countP_cons, decide_eq_true_eq]

theorem cover_append (l r : List Span) (i : ℕ) : cover (l ++ r) i = cover l i + cover r i :=
  List.countP_append

theorem cover_perm {l r : List Span} (h : l.Perm r) (i : ℕ) : cover l i = cover r i :=
  h.countP_eq _

theorem cover_pos_iff {l : List Span} {i : ℕ} : 0 < cover l i ↔ ∃ s ∈ l, s.Contains i := by
  simp [cover, List.countP_pos_iff]

/-- Cutting a span at any inner point keeps the cover. -/
theorem cover_cut (start a b : ℕ) (l : List Span) (i : ℕ) :
    cover (⟨start, a⟩ :: ⟨start + a, b⟩ :: l) i = cover (⟨start, a + b⟩ :: l) i := by
  have hiff : Span.Contains ⟨start, a + b⟩ i ↔
      Span.Contains ⟨start, a⟩ i ∨ Span.Contains ⟨start + a, b⟩ i := by
    simp only [Span.Contains, Span.stop]
    omega
  have hex : ¬ (Span.Contains ⟨start, a⟩ i ∧ Span.Contains ⟨start + a, b⟩ i) := by
    simp only [Span.Contains, Span.stop]
    omega
  simp only [cover_cons, hiff]
  by_cases hl : Span.Contains ⟨start, a⟩ i
  · have hr : ¬ Span.Contains ⟨start + a, b⟩ i := fun hr => hex ⟨hl, hr⟩
    simp [hl, hr]
  · simp [hl]

/-- The positions that some span of the list contains. -/
def positions (l : List Span) : Set ℕ := {i | ∃ s ∈ l, s.Contains i}

theorem mem_positions_iff {l : List Span} {i : ℕ} : i ∈ positions l ↔ 0 < cover l i :=
  cover_pos_iff.symm

/-! ## Tilings -/

/-- The spans of `l` tile `[0, n)`: each position below `n` lies in exactly one of them and no
other position lies in any. -/
def Tiles (n : ℕ) (l : List Span) : Prop := ∀ i, cover l i = if i < n then 1 else 0

section Tilings

variable {n : ℕ} {l r : List Span}

theorem Tiles.of_cover_eq (h : Tiles n l) (hc : ∀ i, cover r i = cover l i) : Tiles n r :=
  fun i => (hc i).trans (h i)

theorem Tiles.perm (h : Tiles n l) (hp : l.Perm r) : Tiles n r :=
  h.of_cover_eq fun i => cover_perm hp.symm i

/-- The single span `[0, n)` is a tiling. -/
theorem tiles_single (n : ℕ) : Tiles n [⟨0, n⟩] := by
  intro i
  simp [cover_cons, Span.Contains, Span.stop]

theorem Tiles.cut {start a b : ℕ} (h : Tiles n (⟨start, a + b⟩ :: l)) :
    Tiles n (⟨start, a⟩ :: ⟨start + a, b⟩ :: l) :=
  h.of_cover_eq fun i => cover_cut start a b l i

theorem Tiles.join {start a b : ℕ} (h : Tiles n (⟨start, a⟩ :: ⟨start + a, b⟩ :: l)) :
    Tiles n (⟨start, a + b⟩ :: l) :=
  h.of_cover_eq fun i => (cover_cut start a b l i).symm

theorem Tiles.cover_le_one (h : Tiles n l) (i : ℕ) : cover l i ≤ 1 := by
  rw [h i]
  split <;> omega

/-- A non-empty span of a tiling ends at or before `n`. -/
theorem Tiles.stop_le (h : Tiles n l) {s : Span} (hs : s ∈ l) (hpos : 0 < s.len) : s.stop ≤ n := by
  -- its last position is covered, so it is below `n`
  have hlast : s.Contains (s.stop - 1) := by
    simp only [Span.Contains, Span.stop]
    omega
  have hc : 0 < cover l (s.stop - 1) := cover_pos_iff.mpr ⟨s, hs, hlast⟩
  rw [h] at hc
  split at hc
  · omega
  · exact absurd hc (lt_irrefl 0)

/-- Of the spans of a list that covers no position twice, any two non-empty ones are apart. -/
theorem pairwise_apart_of_pos :
    ∀ {l : List Span}, (∀ i, cover l i ≤ 1) →
      l.Pairwise fun s t => 0 < s.len → 0 < t.len → s.Apart t
  | [], _ => List.Pairwise.nil
  | s :: l, hc => by
    have htail : ∀ i, cover l i ≤ 1 := fun i => by
      have := hc i
      rw [cover_cons] at this
      omega
    refine List.Pairwise.cons (fun t ht hs hpos => ?_) (pairwise_apart_of_pos htail)
    by_contra hna
    -- a shared position would be covered twice
    obtain ⟨i, hsi, hti⟩ := Span.exists_contains_of_not_apart hs hpos hna
    have hle := hc i
    have hone : 0 < cover l i := cover_pos_iff.mpr ⟨t, ht, hti⟩
    rw [cover_cons, if_pos hsi] at hle
    omega

theorem pairwise_apart_of_cover_le_one (hc : ∀ i, cover l i ≤ 1) (hpos : ∀ s ∈ l, 0 < s.len) :
    l.Pairwise Span.Apart :=
  (pairwise_apart_of_pos hc).imp_of_mem fun hs ht h => h (hpos _ hs) (hpos _ ht)

theorem Tiles.pairwise_apart (h : Tiles n l) (hpos : ∀ s ∈ l, 0 < s.len) :
    l.Pairwise Span.Apart :=
  pairwise_apart_of_cover_le_one h.cover_le_one hpos

/-! ## Counting -/

/-- Summing the cover over `[0, n)` gives the total length of spans inside it. -/
theorem sum_cover (n : ℕ) : ∀ {l : List Span}, (∀ s ∈ l, s.stop ≤ n) →
    ∑ i ∈ Finset.range n, cover l i = (l.map Span.len).sum
  | [], _ => by simp
  | s :: l, h => by
    have hs : s.stop ≤ n := h s List.mem_cons_self
    -- the first span adds one for each of its positions
    have hone : ∑ i ∈ Finset.range n, (if s.Contains i then 1 else 0) = s.len := by
      rw [← Finset.card_filter]
      have hset : (Finset.range n).filter s.Contains = Finset.Ico s.start s.stop := by
        ext i
        simp only [Finset.mem_filter, Finset.mem_range, Finset.mem_Ico, Span.Contains]
        omega
      rw [hset, Nat.card_Ico, Span.stop]
      omega
    simp only [cover_cons, Finset.sum_add_distrib, List.map_cons, List.sum_cons]
    rw [sum_cover n fun t ht => h t (List.mem_cons_of_mem _ ht), hone]
    omega

/-- Spans inside `[0, n)` that cover no position twice have total length at most `n`. -/
theorem total_len_le (hstop : ∀ s ∈ l, s.stop ≤ n) (hc : ∀ i, cover l i ≤ 1) :
    (l.map Span.len).sum ≤ n := by
  rw [← sum_cover n hstop]
  calc ∑ i ∈ Finset.range n, cover l i
      ≤ ∑ _i ∈ Finset.range n, 1 := Finset.sum_le_sum fun i _ => hc i
    _ = n := by simp

/-- There are at most `n` non-empty spans inside `[0, n)` that cover no position twice. -/
theorem length_le (hstop : ∀ s ∈ l, s.stop ≤ n) (hc : ∀ i, cover l i ≤ 1)
    (hpos : ∀ s ∈ l, 0 < s.len) : l.length ≤ n := by
  have hlen : (l.map Span.len).length ≤ (l.map Span.len).sum := by
    apply List.length_le_sum_of_one_le
    intro k hk
    obtain ⟨s, hs, rfl⟩ := List.mem_map.mp hk
    exact hpos s hs
  rw [List.length_map] at hlen
  exact hlen.trans (total_len_le hstop hc)

end Tilings

end ShmemUtils.Library
