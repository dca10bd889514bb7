import ShmemUtils.Allocator.Arena

/-!
# The usable size against the reserved chunks

`usable_size` rounds a size up on its own, next to the rounding of `get` and of `return_back`.
The three agree exactly for the sizes that are whole chunks already, and for those where the
number of whole chunks happens to equal the remainder.
-/

namespace ShmemUtils.Allocator

open ShmemUtils.Library

/-- The bounds that `usable_size` reports hold the size asked for and stay inside the block, so
that any size between them is inside the block, and any size from the one asked for up to the upper
bound gives back the block's own chunks. -/
def UsableAgrees (S : Superslice) (a : ShmemAlloc) (b : Live) : Prop :=
  ∃ l u, ShmemAlloc.usableSize b.layout = .ok (l, u) ∧
    l ≤ b.layout.size ∧ b.layout.size ≤ u ∧ u ≤ b.usable ∧
    (∀ s, l ≤ s → s ≤ u → s ≤ b.usable) ∧
    ∀ s, b.layout.size ≤ s → s ≤ u →
      ∃ chunks, a.freeChunks.returnBack S (b.ptr - a.memoryBuffer) s = .ok chunks ∧
        Disjoint (Arena.freeChunks a) (b.chunks a.memoryBuffer) ∧
        Arena.freeChunks { a with freeChunks := chunks } =
          Arena.freeChunks a ∪ b.chunks a.memoryBuffer

section Rounding

variable {layout : Layout}

theorem usableSize_of_aligned (hcheck : ShmemAlloc.checkAlignment layout = .ok ())
    (hmod : layout.size % chunkSize = 0) :
    ShmemAlloc.usableSize layout = .ok (layout.size, layout.size) := by
  simp only [ShmemAlloc.usableSize, hcheck, if_pos hmod]
  rfl

/-- The other sizes become nine bytes for each whole chunk. -/
theorem usableSize_of_unaligned (hcheck : ShmemAlloc.checkAlignment layout = .ok ())
    (hmod : layout.size % chunkSize ≠ 0) :
    ShmemAlloc.usableSize layout = (do
      let size ← Usize.mul (layout.size / chunkSize) (chunkSize + 1)
      return (size, size)) := by
  simp only [ShmemAlloc.usableSize, hcheck, if_neg hmod]

/-- Both bounds are the same number, so they hold the size only when they are the size. -/
theorem usableSize_eq_size_iff (hcheck : ShmemAlloc.checkAlignment layout = .ok ()) :
    (∃ l u, ShmemAlloc.usableSize layout = .ok (l, u) ∧ l ≤ layout.size ∧ layout.size ≤ u) ↔
      layout.size % chunkSize = 0 ∨ layout.size / chunkSize = layout.size % chunkSize := by
  by_cases hmod : layout.size % chunkSize = 0
  · rw [usableSize_of_aligned hcheck hmod]
    exact ⟨fun _ => Or.inl hmod, fun _ => ⟨_, _, rfl, le_refl _, le_refl _⟩⟩
  rw [usableSize_of_unaligned hcheck hmod, Usize.mul]
  constructor
  · rintro ⟨l, u, hrun, hlow, hhigh⟩
    right
    split at hrun
    · cases hrun
      -- `9 * (size / 8) = size` leaves `size / 8 = size % 8`
      simp only [chunkSize, alignment] at *
      omega
    · cases hrun
  · rintro (hzero | heq)
    · exact absurd hzero hmod
    · have hsize : layout.size / chunkSize * (chunkSize + 1) = layout.size := by
        simp only [chunkSize, alignment] at *
        omega
      have hword : layout.size < usizeLimit := by
        have := layout.size_le
        omega
      rw [hsize, if_pos hword]
      exact ⟨_, _, rfl, le_refl _, le_refl _⟩

end Rounding

namespace Arena

variable {env : Environment} {S : Superslice} {capacity : ℕ} {st : Arena}

/-- **When the usable size is right**: for a block that was just allocated in any reachable state,
exactly when its size is a multiple of the chunk size, or has as many whole chunks as bytes over
them. -/
theorem usableSize_agrees_iff (h : Run env S capacity st) {layout : Layout}
    (hsize : layout.size ≠ 0) (hcheck : ShmemAlloc.checkAlignment layout = .ok ()) {ptr r : ℕ}
    {a : ShmemAlloc} (hrun : st.alloc.allocExcess S layout = .ok (.ok ⟨ptr, r⟩, a)) :
    UsableAgrees S a ⟨ptr, layout, r⟩ ↔
      layout.size % chunkSize = 0 ∨ layout.size / chunkSize = layout.size % chunkSize := by
  rw [← usableSize_eq_size_iff hcheck]
  constructor
  · rintro ⟨l, u, heq, hlow, hhigh, -⟩
    exact ⟨l, u, heq, hlow, hhigh⟩
  · rintro ⟨l, u, heq, hlow, hhigh⟩
    have hinv := (h.allocExcess hrun).inv
    have hb : (⟨ptr, layout, r⟩ : Live) ∈ (⟨ptr, layout, r⟩ :: st.live : List Live) :=
      List.mem_cons_self
    obtain ⟨-, i, hplaced⟩ := hinv.placed hb hsize
    obtain ⟨-, hlarge, -⟩ := hinv.block_ok hb hsize
    -- the two bounds are one number, which holds the size from both sides
    have hu : u = layout.size := by
      by_cases hmod : layout.size % chunkSize = 0
      · rw [usableSize_of_aligned hcheck hmod] at heq
        cases heq
        rfl
      · rw [usableSize_of_unaligned hcheck hmod, Usize.mul] at heq
        split at heq
        · cases heq
          exact le_antisymm hlow hhigh
        · cases heq
    subst hu
    refine ⟨l, layout.size, heq, hlow, hhigh, hlarge, fun s _ hs => hs.trans hlarge, ?_⟩
    intro s hs₁ hs₂
    -- `dealloc` finds the block's first chunk from its address
    have hshift : ptr - a.memoryBuffer = i * chunkSize := by
      have hptr : ptr = a.memoryBuffer + i * chunkSize := hplaced.1
      omega
    obtain ⟨v, hret, hv⟩ := hinv.returnBack S hb (Nat.pos_of_ne_zero hsize) hplaced hs₁
      (Or.inl (hs₂.trans hlarge))
    obtain ⟨hdisjoint, hfree⟩ := hinv.freeChunks_release hb hplaced hv
    refine ⟨⟨v⟩, ?_, hdisjoint, hfree⟩
    show a.freeChunks.returnBack S (ptr - a.memoryBuffer) s = _
    rw [hshift]
    exact hret

/-- Nine bytes: one whole chunk, and one byte over it. -/
private def nineBytes : Layout := ⟨9, 1, ⟨0, rfl⟩, by decide⟩

private def oneByte : Layout := ⟨1, 1, ⟨0, rfl⟩, by decide⟩

private theorem fresh_run : Run exampleEnvironment .linear 16 ⟨⟨⟨⟨2, [⟨⟨0⟩, 2⟩]⟩⟩, 4096⟩, []⟩ :=
  .new (by decide)

theorem usableSize_agrees_nine :
    UsableAgrees .linear ⟨⟨⟨2, []⟩⟩, 4096⟩ ⟨4096, nineBytes, 16⟩ :=
  (usableSize_agrees_iff fresh_run (by decide) (by decide) (by decide)).mpr (by decide)

/-- One byte is reserved a chunk, and reported as no byte at all. -/
theorem usableSize_disagrees_one :
    ∃ st, Run exampleEnvironment .linear 16 st ∧ oneByte.size ≠ 0 ∧
      ShmemAlloc.checkAlignment oneByte = .ok () ∧
      ∃ a, st.alloc.allocExcess .linear oneByte = .ok (.ok ⟨4096, 8⟩, a) ∧
        ShmemAlloc.usableSize oneByte = .ok (0, 0) ∧
        ¬ UsableAgrees .linear a ⟨4096, oneByte, 8⟩ := by
  refine ⟨_, fresh_run, by decide, by decide, ⟨⟨⟨2, [⟨⟨1⟩, 1⟩]⟩⟩, 4096⟩, by decide, by decide, ?_⟩
  rintro ⟨l, u, heq, -, hhigh, -⟩
  have hzero : ShmemAlloc.usableSize oneByte = .ok (0, 0) := by decide
  rw [hzero] at heq
  cases heq
  exact absurd hhigh (by decide)

end Arena

end ShmemUtils.Allocator
