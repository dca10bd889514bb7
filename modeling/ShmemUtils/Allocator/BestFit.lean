import ShmemUtils.Library.Gaps
import ShmemUtils.Allocator.HeapRuns

/-!
# Best fit and history independence

The free list holds exactly the gaps between the blocks that are handed out
(`FreeList.mem_iff_gap`), in the order of the source. What `get` takes is then the first of the
shortest gaps that are long enough, and the list itself depends on the handed-out blocks alone,
whatever the history.
-/

namespace ShmemUtils.Allocator

open ShmemUtils.Library

namespace FreeList

variable {N : ℕ} {v v' : FixesSortedVec FreeSpace} {held held' : List Span}

theorem spans (h : FreeList N v held) : Coalesced N (v.items.map FreeSpace.span) held where
  tiles := h.tiles
  positive s hs := by
    obtain ⟨e, he, rfl⟩ := List.mem_map.mp hs
    exact h.positive e he
  separate := List.pairwise_map.mpr h.coalesced

theorem mem_iff_gap (h : FreeList N v held) {e : FreeSpace} : e ∈ v.items ↔ Gap N held e.span := by
  rw [← h.spans.mem_iff_gap]
  exact (List.mem_map_of_injective FreeSpace.span_injective).symm

theorem exists_mem_of_gap (h : FreeList N v held) {s : Span} (hs : Gap N held s) :
    ∃ e ∈ v.items, e.span = s :=
  List.mem_map.mp (h.spans.mem_iff_gap.mpr hs)

theorem nodup (h : FreeList N v held) : v.items.Nodup := by
  -- two equal entries would overlap themselves
  refine h.pairwise_apart.imp_of_mem ?_
  intro a b ha hb hapart heq
  subst heq
  have hpos := h.positive a ha
  simp only [Span.Apart, Span.stop, FreeSpace.span_len] at hapart
  omega

/-- **The canonical form**: what is held decides the free list, entry by entry. -/
theorem items_eq (h : FreeList N v held) (h' : FreeList N v' held')
    (hsame : positions held = positions held') : v.items = v'.items := by
  have hperm : v.items.Perm v'.items := by
    refine (List.perm_ext_iff_of_nodup h.nodup h'.nodup).mpr fun e => ?_
    rw [h.mem_iff_gap, h'.mem_iff_gap]
    exact ⟨fun hgap => hgap.congr hsame, fun hgap => hgap.congr hsame.symm⟩
  -- sorted lists with the same entries are equal, since the order of the source is antisymmetric
  refine hperm.eq_of_pairwise ?_ h.sorted h'.sorted
  rintro ⟨⟨a⟩, m⟩ ⟨⟨b⟩, l⟩ - - hle hge
  rw [FreeSpace.compare_isLE_iff] at hle hge
  simp only at hle hge
  rw [FreeSpace.mk.injEq, RelativeBeginning.mk.injEq]
  omega

end FreeList

/-! ## What `get` takes -/

section Get

variable {N size : ℕ} {v v' : FixesSortedVec FreeSpace} {held held' : List Span}

/-- `get` on the gaps: none is long enough and nothing changes, or the block is cut from the front
of the best one. -/
theorem get_gap (S : Superslice) (h : FreeList N v held) :
    (Chunks.get S ⟨v⟩ size = .ok (none, ⟨v⟩) ∧
      ∀ s, Gap N held s → s.len < chunksFor size) ∨
    ∃ gap v', BestGap N held (chunksFor size) gap ∧
      Chunks.get S ⟨v⟩ size = .ok (some ⟨⟨gap.start⟩, chunksFor size⟩, ⟨v'⟩) ∧
      FreeList N v' (⟨gap.start, chunksFor size⟩ :: held) := by
  rcases get_spec S h with ⟨hnone, hshort⟩ | ⟨lo, e, hi, v', heq, hlo, hge, hsome, hinv⟩
  · left
    refine ⟨hnone, fun s hs => ?_⟩
    obtain ⟨e, he, rfl⟩ := h.exists_mem_of_gap hs
    exact hshort e he
  · right
    have hmem : e ∈ v.items := heq ▸ List.mem_append_right lo List.mem_cons_self
    refine ⟨e.span, v', ⟨h.mem_iff_gap.mp hmem, hge, ?_⟩, hsome, hinv⟩
    intro s hs hlong
    obtain ⟨f, hf, rfl⟩ := h.exists_mem_of_gap hs
    rw [FreeSpace.span_len] at hlong
    rw [heq] at hf
    rcases List.mem_append.mp hf with hf | hf
    · -- what stands before the entry is too short
      exact absurd hlong (Nat.not_le.mpr (hlo f hf))
    · rcases List.mem_cons.mp hf with rfl | hf
      · -- the entry itself
        exact Or.inr ⟨rfl, le_rfl⟩
      · -- what stands behind it comes later in the order, so it is not shorter
        have hsorted := h.sorted
        rw [heq] at hsorted
        have htail := (List.pairwise_append.mp hsorted).2.1
        exact FreeSpace.compare_isLE_iff.mp ((List.pairwise_cons.mp htail).1 f hf)

/-- Two managers with the same positions taken answer the same, and take the same positions. -/
theorem get_same (S S' : Superslice) (h : FreeList N v held) (h' : FreeList N v' held')
    (hsame : positions held = positions held') (size : ℕ) :
    ∃ r w w' taken taken', Chunks.get S ⟨v⟩ size = .ok (r, ⟨w⟩) ∧
      Chunks.get S' ⟨v'⟩ size = .ok (r, ⟨w'⟩) ∧ FreeList N w taken ∧ FreeList N w' taken' ∧
      positions taken = positions taken' := by
  rcases get_gap S h with ⟨hnone, hshort⟩ | ⟨gap, w, hbest, hsome, hinv⟩
  · rcases get_gap S' h' with ⟨hnone', -⟩ | ⟨gap', w', hbest', -, -⟩
    · exact ⟨none, v, v', held, held', hnone, hnone', h, h', hsame⟩
    · -- one finds a block and the other does not: their gaps would differ
      have hlt := hshort gap' (hbest'.gap.congr hsame.symm)
      exact absurd hbest'.long (Nat.not_le.mpr hlt)
  · rcases get_gap S' h' with ⟨-, hshort'⟩ | ⟨gap', w', hbest', hsome', hinv'⟩
    · have hlt := hshort' gap (hbest.gap.congr hsame)
      exact absurd hbest.long (Nat.not_le.mpr hlt)
    · have hgap : gap = gap' := hbest.eq (hbest'.congr hsame.symm)
      subst hgap
      exact ⟨_, w, w', _, _, hsome, hsome', hinv, hinv', positions_cons_congr _ hsame⟩

end Get

namespace Heap

variable {A A' : VecAllocator} {S S' : Superslice} {N : ℕ} {st st' : Heap}

/-- A fresh manager has at least one chunk. -/
theorem Run.pos (h : Run A S N st) : 1 ≤ N := by
  induction h with
  | new hnew =>
    by_contra hzero
    have hN : N = 0 := by omega
    subst hN
    unfold Chunks.new at hnew
    split at hnew
    · cases hnew
    · cases hnew
  | get _ _ _ ih => exact ih
  | getNone _ _ _ ih => exact ih
  | returnBack _ _ _ ih => exact ih

/-- `k` chunk indices in a row that belong to no block. -/
def HasRoom (N : ℕ) (st : Heap) (k : ℕ) : Prop :=
  ∃ start, start + k ≤ N ∧
    ∀ i, start ≤ i → i < start + k → ∀ b ∈ st.handedOut, ¬ b.1.span.Contains i

theorem not_mem_positions_held {i : ℕ} :
    i ∉ positions st.held ↔ ∀ b ∈ st.handedOut, ¬ b.1.span.Contains i := by
  simp [positions, held]

/-- There is room for `k` chunks when some gap is long enough. -/
theorem Inv.hasRoom_iff (h : Inv N st) {k : ℕ} (hk : 0 < k) :
    HasRoom N st k ↔ ∃ s, Gap N st.held s ∧ k ≤ s.len := by
  constructor
  · -- vacant chunks in a row lie in one gap
    rintro ⟨start, hle, hfree⟩
    have hv : ∀ i, Span.Contains ⟨start, k⟩ i → Vacant N st.held i := by
      intro i hi
      simp only [Span.Contains, Span.stop] at hi
      exact ⟨by omega, not_mem_positions_held.mpr (hfree i hi.1 hi.2)⟩
    obtain ⟨s, hs, hstart, hstop⟩ := h.freeList.spans.exists_gap hk hv
    refine ⟨s, hs, ?_⟩
    simp only [Span.stop] at hstart hstop
    omega
  · rintro ⟨s, hs, hle⟩
    have hin : ∀ i, s.start ≤ i → i < s.start + k → Vacant N st.held i := by
      intro i hlow hhigh
      refine hs.vacant i ⟨hlow, ?_⟩
      simp only [Span.stop]
      omega
    refine ⟨s.start, ?_, fun i hlow hhigh => not_mem_positions_held.mp (hin i hlow hhigh).2⟩
    have hlast := (hin (s.start + k - 1) (by omega) (by omega)).1
    omega

/-- **No false out-of-memory, and best fit**, in every state of every run: `get` finds a block if
and only if there is room for one; the block has the required count and stands at the beginning of
the first of the shortest gaps that are long enough; and without one nothing changes. -/
theorem get_best_fit (hword : N < usizeLimit) (h : Run A S N st) {size : ℕ} (hsize : 1 ≤ size) :
    ∃ r chunks, st.chunks.get S size = .ok (r, chunks) ∧
      (r.isSome = true ↔ HasRoom N st (chunksFor size)) ∧
      (∀ block, r = some block → block.count = chunksFor size ∧
        ∃ gap, BestGap N st.held (chunksFor size) gap ∧ block.begin.chunks = gap.start) ∧
      (r = none → chunks = st.chunks) := by
  have hinv := h.inv h.pos hword
  rw [hinv.hasRoom_iff (chunksFor_pos hsize)]
  rcases get_gap S hinv.freeList with ⟨hnone, hshort⟩ | ⟨gap, v', hbest, hsome, -⟩
  · refine ⟨none, st.chunks, hnone, ?_, fun _ hblock => (by cases hblock), fun _ => rfl⟩
    constructor
    · intro hfalse
      cases hfalse
    · rintro ⟨s, hs, hlong⟩
      exact absurd hlong (Nat.not_le.mpr (hshort s hs))
  · refine ⟨_, _, hsome, ?_, ?_, fun hfalse => (by cases hfalse)⟩
    · exact iff_of_true rfl ⟨gap, hbest.gap, hbest.long⟩
    · intro block hblock
      cases hblock
      exact ⟨rfl, gap, hbest, rfl⟩

/-- Four chunks, of which the third is handed out. -/
private def thirdTaken : Heap :=
  ⟨⟨⟨4, [⟨⟨3⟩, 1⟩, ⟨⟨0⟩, 2⟩]⟩⟩, [(⟨⟨2⟩, 1⟩, 8)]⟩

/-- The first two chunks as one block. -/
private theorem thirdTaken_run : Run .exact .linear 4 thirdTaken := by
  have h₀ : Run .exact .linear 4 ⟨⟨⟨4, [⟨⟨0⟩, 4⟩]⟩⟩, []⟩ := .new (by decide)
  have h₁ : Run .exact .linear 4 ⟨⟨⟨4, [⟨⟨2⟩, 2⟩]⟩⟩, [(⟨⟨0⟩, 2⟩, 9)]⟩ :=
    .get h₀ (by decide) (by decide)
  have h₂ : Run .exact .linear 4 ⟨⟨⟨4, [⟨⟨3⟩, 1⟩]⟩⟩, [(⟨⟨2⟩, 1⟩, 8), (⟨⟨0⟩, 2⟩, 9)]⟩ :=
    .get h₁ (by decide) (by decide)
  have hback : ((⟨⟨0⟩, 2⟩, 9) : FreeSpace × ℕ) ∈
      [((⟨⟨2⟩, 1⟩, 8) : FreeSpace × ℕ), (⟨⟨0⟩, 2⟩, 9)] := by decide
  exact .returnBack h₂ hback (by decide)

/-- The same, with two blocks of one chunk each that come back in the order they were taken. -/
private theorem thirdTaken_run' : Run .exact .linear 4 thirdTaken := by
  have h₀ : Run .exact .linear 4 ⟨⟨⟨4, [⟨⟨0⟩, 4⟩]⟩⟩, []⟩ := .new (by decide)
  have h₁ : Run .exact .linear 4 ⟨⟨⟨4, [⟨⟨1⟩, 3⟩]⟩⟩, [(⟨⟨0⟩, 1⟩, 8)]⟩ :=
    .get h₀ (by decide) (by decide)
  have h₂ : Run .exact .linear 4 ⟨⟨⟨4, [⟨⟨2⟩, 2⟩]⟩⟩, [(⟨⟨1⟩, 1⟩, 8), (⟨⟨0⟩, 1⟩, 8)]⟩ :=
    .get h₁ (by decide) (by decide)
  have h₃ : Run .exact .linear 4
      ⟨⟨⟨4, [⟨⟨3⟩, 1⟩]⟩⟩, [(⟨⟨2⟩, 1⟩, 8), (⟨⟨1⟩, 1⟩, 8), (⟨⟨0⟩, 1⟩, 8)]⟩ :=
    .get h₂ (by decide) (by decide)
  have hfirst : ((⟨⟨0⟩, 1⟩, 8) : FreeSpace × ℕ) ∈
      [((⟨⟨2⟩, 1⟩, 8) : FreeSpace × ℕ), (⟨⟨1⟩, 1⟩, 8), (⟨⟨0⟩, 1⟩, 8)] := by decide
  have h₄ : Run .exact .linear 4
      ⟨⟨⟨4, [⟨⟨0⟩, 1⟩, ⟨⟨3⟩, 1⟩]⟩⟩, [(⟨⟨2⟩, 1⟩, 8), (⟨⟨1⟩, 1⟩, 8)]⟩ :=
    .returnBack h₃ hfirst (by decide)
  have hsecond : ((⟨⟨1⟩, 1⟩, 8) : FreeSpace × ℕ) ∈
      [((⟨⟨2⟩, 1⟩, 8) : FreeSpace × ℕ), (⟨⟨1⟩, 1⟩, 8)] := by decide
  exact .returnBack h₄ hsecond (by decide)

theorem get_best_fit_example :
    ∃ r chunks, thirdTaken.chunks.get .linear 8 = .ok (r, chunks) ∧
      (r.isSome = true ↔ HasRoom 4 thirdTaken 1) := by
  obtain ⟨r, chunks, hget, hroom, -, -⟩ :=
    get_best_fit (by decide) thirdTaken_run (show 1 ≤ 8 by decide)
  exact ⟨r, chunks, hget, hroom⟩

/-! ## History independence -/

def blocks (st : Heap) : List FreeSpace := st.handedOut.map Prod.fst

/-- Several blocks go back, one after the other. -/
def returnAll (S : Superslice) : Chunks → List (FreeSpace × ℕ) → Checked Chunks
  | chunks, [] => .ok chunks
  | chunks, b :: bs => do
    let chunks ← chunks.returnBack S (b.1.begin.chunks * chunkSize) b.2
    returnAll S chunks bs

/-- Several sizes are asked for, one after the other. -/
def getAll (S : Superslice) : Chunks → List ℕ → Checked (List (Option FreeSpace) × Chunks)
  | chunks, [] => .ok ([], chunks)
  | chunks, size :: sizes => do
    let (r, chunks) ← chunks.get S size
    let (rs, chunks) ← getAll S chunks sizes
    return (r :: rs, chunks)

theorem positions_held_eq (h : ∀ b, b ∈ st.blocks ↔ b ∈ st'.blocks) :
    positions st.held = positions st'.held := by
  have hspan : ∀ st : Heap, st.held = st.blocks.map FreeSpace.span := by
    intro st
    simp [held, blocks]
  ext i
  simp only [positions, hspan, List.mem_map, exists_exists_and_eq_and, h, Set.mem_ofPred_eq]

theorem getAll_same {sizes : List ℕ} {v v' : FixesSortedVec FreeSpace} {taken taken' : List Span}
    (h : FreeList N v taken) (h' : FreeList N v' taken')
    (hsame : positions taken = positions taken') :
    ∃ rs c c', getAll S ⟨v⟩ sizes = .ok (rs, c) ∧ getAll S' ⟨v'⟩ sizes = .ok (rs, c') := by
  -- what is taken next is again the same on both sides
  induction sizes generalizing v v' taken taken' with
  | nil => exact ⟨[], ⟨v⟩, ⟨v'⟩, rfl, rfl⟩
  | cons size sizes ih =>
    obtain ⟨r, w, w', next, next', hget, hget', hinv, hinv', hnext⟩ :=
      get_same S S' h h' hsame size
    obtain ⟨rs, c, c', hrest, hrest'⟩ := ih hinv hinv' hnext
    refine ⟨r :: rs, c, c', ?_, ?_⟩
    · simp only [getAll, hget, checked_ok_bind, hrest]
      rfl
    · simp only [getAll, hget', checked_ok_bind, hrest']
      rfl

theorem returnAll_spec {bs : List (FreeSpace × ℕ)} {v : FixesSortedVec FreeSpace}
    {rest : List Span} (S : Superslice)
    (h : FreeList N v ((bs.map fun b => b.1.span) ++ rest))
    (hbs : ∀ b ∈ bs, 0 < b.1.count ∧ chunksFor b.2 = b.1.count) :
    ∃ v', returnAll S ⟨v⟩ bs = .ok ⟨v'⟩ ∧ FreeList N v' rest := by
  induction bs generalizing v with
  | nil => exact ⟨v, rfl, h⟩
  | cons b bs ih =>
    obtain ⟨hpos, hsize⟩ := hbs b List.mem_cons_self
    obtain ⟨w, hret, hw⟩ := returnBack_spec S h hpos hsize
    obtain ⟨v', hrest, hinv⟩ := ih hw fun b hb => hbs b (List.mem_cons_of_mem _ hb)
    refine ⟨v', ?_, hinv⟩
    simp only [returnAll]
    rw [show b.1.begin.chunks = b.1.span.start from rfl, hret, checked_ok_bind, hrest]

/-- Some of the handed-out blocks go back, and the others are left. -/
theorem Inv.returnAll (h : Inv N st) (S : Superslice) {bs rest : List (FreeSpace × ℕ)}
    (hbs : st.handedOut.Perm (bs ++ rest)) :
    ∃ v', returnAll S st.chunks bs = .ok ⟨v'⟩ ∧ FreeList N v' (rest.map fun b => b.1.span) := by
  have hheld := hbs.map fun b : FreeSpace × ℕ => b.1.span
  rw [List.map_append] at hheld
  refine returnAll_spec S (h.freeList.perm_held hheld) fun b hb => ?_
  exact h.blocks b (hbs.mem_iff.mpr (List.mem_append_left rest hb))

/-- With nothing taken there is one free space. -/
theorem items_eq_whole (hN : 1 ≤ N) {v : FixesSortedVec FreeSpace} (h : FreeList N v []) :
    v.items = [⟨⟨0⟩, N⟩] := by
  have hpos : ∀ e ∈ ([⟨⟨0⟩, N⟩] : List FreeSpace), 0 < e.count := by
    intro e he
    rw [List.mem_singleton.mp he]
    exact hN
  have hwhole : FreeList N ⟨N, [⟨⟨0⟩, N⟩]⟩ [] :=
    ⟨hpos, List.pairwise_singleton _ _, List.pairwise_singleton _ _, tiles_single N,
      le_rfl, h.word⟩
  exact h.items_eq hwhole rfl

/-- **History independence**: after any two runs that end with the same blocks handed out, the free
lists are equal and later allocations come out the same. Blocks can be returned in any order with
the same result, returning a block that was just taken restores the list, and returning all of them
restores the list of a fresh manager. -/
theorem history_independent (hword : N < usizeLimit) (h : Run A S N st) (h' : Run A' S' N st')
    (hsame : ∀ b, b ∈ st.blocks ↔ b ∈ st'.blocks) :
    st.free = st'.free ∧
    (∀ sizes : List ℕ, (∀ size ∈ sizes, 1 ≤ size) → ∃ rs c c',
      getAll S st.chunks sizes = .ok (rs, c) ∧ getAll S' st'.chunks sizes = .ok (rs, c')) ∧
    (∀ bs bs', bs.Subperm st.handedOut → bs.Perm bs' → ∃ c c',
      returnAll S st.chunks bs = .ok c ∧ returnAll S st.chunks bs' = .ok c' ∧
        c.freeChunks.items = c'.freeChunks.items) ∧
    (∀ size space c, 1 ≤ size → st.chunks.get S size = .ok (some space, c) → ∃ c',
      c.returnBack S (space.begin.chunks * chunkSize) size = .ok c' ∧
        c'.freeChunks.items = st.free) ∧
    ∀ bs, bs.Perm st.handedOut → ∃ c, returnAll S st.chunks bs = .ok c ∧
      c.freeChunks.items = [⟨⟨0⟩, N⟩] := by
  have hinv := h.inv h.pos hword
  have hinv' := h'.inv h'.pos hword
  have hpositions := positions_held_eq hsame
  refine ⟨hinv.freeList.items_eq hinv'.freeList hpositions,
    fun sizes _ => getAll_same hinv.freeList hinv'.freeList hpositions, ?_, ?_, ?_⟩
  · intro bs bs' hsub hperm
    -- both orders leave the same blocks behind
    obtain ⟨l, hl, hsublist⟩ := hsub
    obtain ⟨rest, hrest⟩ := hsublist.exists_perm_append
    have hbs : st.handedOut.Perm (bs ++ rest) := hrest.trans (hl.append_right rest)
    obtain ⟨v, hret, hv⟩ := hinv.returnAll S hbs
    obtain ⟨v', hret', hv'⟩ := hinv.returnAll S (hbs.trans (hperm.append_right rest))
    exact ⟨⟨v⟩, ⟨v'⟩, hret, hret', hv.items_eq hv' rfl⟩
  · intro size space c hsize hget
    rcases hinv.get S hsize with hnone | ⟨space', c', hsome, hinv₁⟩
    · rw [hnone] at hget
      cases hget
    · cases hsome.symm.trans hget
      have hmem : (space, size) ∈ (space, size) :: st.handedOut := List.mem_cons_self
      obtain ⟨c', hret, hinv₂⟩ := hinv₁.returnBack S hmem
      refine ⟨c', hret, hinv₂.freeList.items_eq hinv.freeList ?_⟩
      simp [held]
  · intro bs hperm
    have hbs : st.handedOut.Perm (bs ++ []) := by
      rw [List.append_nil]
      exact hperm.symm
    obtain ⟨v, hret, hv⟩ := hinv.returnAll S hbs
    exact ⟨⟨v⟩, hret, items_eq_whole h.pos hv⟩

theorem history_independent_example :
    ∃ c, returnAll .linear thirdTaken.chunks [(⟨⟨2⟩, 1⟩, 8)] = .ok c ∧
      c.freeChunks.items = [⟨⟨0⟩, 4⟩] :=
  (history_independent (by decide) thirdTaken_run thirdTaken_run' fun _ => Iff.rfl).2.2.2.2 _
    (List.Perm.refl _)

end Heap

end ShmemUtils.Allocator
