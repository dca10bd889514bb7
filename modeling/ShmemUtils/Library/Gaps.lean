import ShmemUtils.Library.Spans

/-!
# Gaps

A gap of a list of spans is a maximal span of `[0, n)` that shares no position with any of them.
When `free` and `taken` tile `[0, n)` together, and no two spans of `free` are adjacent, the spans
of `free` are exactly the gaps of `taken` (`Coalesced.mem_iff_gap`). A list of free spans that is
kept coalesced is therefore determined by what is taken, and there are at most half as many of them
as positions.
-/

namespace ShmemUtils.Library

variable {n k i : ℕ} {free taken taken' : List Span} {s t : Span}

/-- The two spans neither overlap nor touch. -/
def Span.Clear (s t : Span) : Prop := s.stop < t.start ∨ t.stop < s.start

instance : Std.Symm Span.Clear := ⟨fun _ _ h => Or.symm h⟩

/-- A position that no span of `taken` contains. -/
def Vacant (n : ℕ) (taken : List Span) (i : ℕ) : Prop := i < n ∧ i ∉ positions taken

/-- A maximal span of vacant positions. -/
structure Gap (n : ℕ) (taken : List Span) (s : Span) : Prop where
  pos : 0 < s.len
  vacant : ∀ i, s.Contains i → Vacant n taken i
  before : ∀ i, i + 1 = s.start → ¬ Vacant n taken i
  after : ¬ Vacant n taken s.stop

/-- The gap that best fit takes for `k` positions: a shortest one that is long enough, and of
those the first. -/
structure BestGap (n : ℕ) (taken : List Span) (k : ℕ) (s : Span) : Prop where
  gap : Gap n taken s
  long : k ≤ s.len
  best : ∀ t, Gap n taken t → k ≤ t.len → s.len < t.len ∨ s.len = t.len ∧ s.start ≤ t.start

theorem vacant_congr (h : positions taken = positions taken') :
    Vacant n taken i ↔ Vacant n taken' i := by
  rw [Vacant, Vacant, h]

theorem Gap.congr (h : positions taken = positions taken') (hs : Gap n taken s) :
    Gap n taken' s where
  pos := hs.pos
  vacant i hi := (vacant_congr h).mp (hs.vacant i hi)
  before i hi hv := hs.before i hi ((vacant_congr h).mpr hv)
  after hv := hs.after ((vacant_congr h).mpr hv)

/-- A span of vacant positions that meets a gap lies inside it. -/
theorem Gap.contains_of_vacant (hs : Gap n taken s) (ht : ∀ j, t.Contains j → Vacant n taken j)
    (hsi : s.Contains i) (hti : t.Contains i) : s.start ≤ t.start ∧ t.stop ≤ s.stop := by
  constructor
  · by_contra hlt
    -- the position before the gap would be vacant
    refine hs.before (s.start - 1) (by omega) (ht _ ?_)
    simp only [Span.Contains] at hsi hti ⊢
    omega
  · by_contra hlt
    -- and here the one after it
    refine hs.after (ht _ ?_)
    simp only [Span.Contains] at hsi hti ⊢
    omega

/-- Two gaps that meet are the same. -/
theorem Gap.eq_of_contains (hs : Gap n taken s) (ht : Gap n taken t) (hsi : s.Contains i)
    (hti : t.Contains i) : s = t := by
  obtain ⟨hstart, hstop⟩ := hs.contains_of_vacant ht.vacant hsi hti
  obtain ⟨hstart', hstop'⟩ := ht.contains_of_vacant hs.vacant hti hsi
  obtain ⟨a, m⟩ := s
  obtain ⟨b, l⟩ := t
  simp only [Span.stop] at hstart hstop hstart' hstop'
  rw [Span.mk.injEq]
  omega

theorem BestGap.eq (hs : BestGap n taken k s) (ht : BestGap n taken k t) : s = t := by
  have hst := hs.best t ht.gap ht.long
  have hts := ht.best s hs.gap hs.long
  obtain ⟨a, m⟩ := s
  obtain ⟨b, l⟩ := t
  rw [Span.mk.injEq]
  simp only at hst hts
  omega

theorem BestGap.congr (h : positions taken = positions taken') (hs : BestGap n taken k s) :
    BestGap n taken' k s where
  gap := hs.gap.congr h
  long := hs.long
  best t ht := hs.best t (ht.congr h.symm)

theorem positions_cons (s : Span) (l : List Span) :
    positions (s :: l) = {i | s.Contains i} ∪ positions l := by
  ext i
  simp [positions]

theorem positions_cons_congr (s : Span) (h : positions taken = positions taken') :
    positions (s :: taken) = positions (s :: taken') := by
  rw [positions_cons, positions_cons, h]

theorem span_contains_start (h : 0 < s.len) : s.Contains s.start := by
  simp only [Span.Contains, Span.stop]
  omega

/-! ## The free spans of a tiling -/

theorem Tiles.vacant_iff (h : Tiles n (free ++ taken)) :
    Vacant n taken i ↔ ∃ s ∈ free, s.Contains i := by
  have hcover := h i
  rw [cover_append] at hcover
  -- below `n` each position is covered once, by `free` or by `taken`
  rw [Vacant, mem_positions_iff, ← cover_pos_iff]
  constructor
  · rintro ⟨hlt, hnot⟩
    rw [if_pos hlt] at hcover
    omega
  · intro hfree
    split at hcover
    · next hlt => exact ⟨hlt, by omega⟩
    · omega

/-- The spans of `free` tile `[0, n)` together with those of `taken`, and no two of them touch. -/
structure Coalesced (n : ℕ) (free taken : List Span) : Prop where
  tiles : Tiles n (free ++ taken)
  positive : ∀ s ∈ free, 0 < s.len
  separate : free.Pairwise fun s t => ¬ s.Adjacent t

namespace Coalesced

/-- Two free spans neither overlap nor touch. -/
theorem clear (h : Coalesced n free taken) : free.Pairwise Span.Clear := by
  have hapart : free.Pairwise Span.Apart := by
    refine pairwise_apart_of_cover_le_one (fun i => ?_) h.positive
    have := h.tiles.cover_le_one i
    rw [cover_append] at this
    omega
  -- apart and not adjacent leaves a position between them
  refine hapart.imp₂ ?_ h.separate
  intro s t hst hsep
  simp only [Span.Apart, Span.Adjacent, Span.Clear] at hst hsep ⊢
  omega

/-- A free span that contains a position next to another one would touch it. -/
theorem not_contains (h : Coalesced n free taken) (hs : s ∈ free) (ht : t ∈ free)
    (hi : s.start ≤ i + 1 ∧ i ≤ s.stop) (hout : ¬ s.Contains i) : ¬ t.Contains i := by
  intro hti
  have hne : s ≠ t := fun heq => hout (heq ▸ hti)
  have hclear := h.clear.forall hs ht hne
  simp only [Span.Contains, Span.Clear] at hti hclear
  omega

theorem gap_of_mem (h : Coalesced n free taken) (hs : s ∈ free) : Gap n taken s where
  pos := h.positive s hs
  vacant i hi := h.tiles.vacant_iff.mpr ⟨s, hs, hi⟩
  before i hi hv := by
    obtain ⟨t, ht, hti⟩ := h.tiles.vacant_iff.mp hv
    have hout : ¬ s.Contains i := fun hsi => by
      have := hsi.1
      omega
    refine h.not_contains hs ht ⟨hi.ge, ?_⟩ hout hti
    simp only [Span.stop]
    omega
  after hv := by
    obtain ⟨t, ht, hti⟩ := h.tiles.vacant_iff.mp hv
    have hout : ¬ s.Contains s.stop := fun hsi => absurd hsi.2 (lt_irrefl _)
    refine h.not_contains hs ht ⟨?_, le_rfl⟩ hout hti
    simp only [Span.stop]
    omega

/-- **The free spans are the gaps** of what is taken. -/
theorem mem_iff_gap (h : Coalesced n free taken) : s ∈ free ↔ Gap n taken s := by
  constructor
  · exact h.gap_of_mem
  · intro hs
    have hstart := span_contains_start hs.pos
    obtain ⟨t, ht, hti⟩ := h.tiles.vacant_iff.mp (hs.vacant _ hstart)
    rw [hs.eq_of_contains (h.gap_of_mem ht) hstart hti]
    exact ht

/-- Vacant positions in a row lie in one gap. -/
theorem exists_gap (h : Coalesced n free taken) (ht : 0 < t.len)
    (hv : ∀ i, t.Contains i → Vacant n taken i) :
    ∃ s, Gap n taken s ∧ s.start ≤ t.start ∧ t.stop ≤ s.stop := by
  have hstart := span_contains_start ht
  obtain ⟨s, hs, hsi⟩ := h.tiles.vacant_iff.mp (hv _ hstart)
  have hgap := h.gap_of_mem hs
  exact ⟨s, hgap, hgap.contains_of_vacant hv hsi hstart⟩

end Coalesced

/-! ## Counting -/

/-- Spans that are apart cover no position twice. -/
theorem cover_le_one_of_apart : ∀ {l : List Span}, l.Pairwise Span.Apart → ∀ i, cover l i ≤ 1
  | [], _, i => by simp
  | s :: l, h, i => by
    obtain ⟨hhead, htail⟩ := List.pairwise_cons.mp h
    have hrest := cover_le_one_of_apart htail i
    rw [cover_cons]
    split
    · next hs =>
      -- the first span covers the position, so the others do not
      have hzero : ¬ 0 < cover l i := by
        intro hpos
        obtain ⟨t, ht, hti⟩ := cover_pos_iff.mp hpos
        exact (hhead t ht).not_contains hs hti
      omega
    · omega

/-- The span with the position after it. -/
def Span.stretch (s : Span) : Span := ⟨s.start, s.len + 1⟩

/-- Non-empty spans of `[0, n)` that neither overlap nor touch: each takes its own positions and
the one after, so there are at most half of `n + 1`. -/
theorem two_mul_length_le {l : List Span} (hstop : ∀ s ∈ l, s.stop ≤ n) (hpos : ∀ s ∈ l, 0 < s.len)
    (hclear : l.Pairwise Span.Clear) :
    2 * l.length ≤ n + 1 := by
  have hapart : (l.map Span.stretch).Pairwise Span.Apart := by
    refine List.pairwise_map.mpr (hclear.imp ?_)
    intro s t hst
    simp only [Span.Clear, Span.Apart, Span.stretch, Span.stop] at hst ⊢
    omega
  have hinside : ∀ s ∈ l.map Span.stretch, s.stop ≤ n + 1 := by
    intro s hs
    obtain ⟨t, ht, rfl⟩ := List.mem_map.mp hs
    have := hstop t ht
    simp only [Span.stretch, Span.stop] at this ⊢
    omega
  -- the stretched spans fit into `n + 1` positions, and each has at least two
  have htotal := total_len_le hinside (cover_le_one_of_apart hapart)
  have htwo : ∀ m ∈ (l.map Span.stretch).map Span.len, 2 ≤ m := by
    intro m hm
    obtain ⟨s, hs, rfl⟩ := List.mem_map.mp hm
    obtain ⟨t, ht, rfl⟩ := List.mem_map.mp hs
    have := hpos t ht
    simp only [Span.stretch]
    omega
  have hsum := List.card_nsmul_le_sum _ 2 htwo
  simp only [List.length_map, smul_eq_mul] at hsum
  omega

end ShmemUtils.Library
