import ShmemUtils.Allocator.Arena

/-!
# The free list has room, and nothing panics

Free spaces neither overlap nor touch, so at most half of the chunks, rounded up, begin one. The
vector of the manager holds as many entries as there are chunks; it never has to grow, and no check
of the allocator fails.
-/

namespace ShmemUtils.Allocator

open ShmemUtils.Library

/-- Every free space but the last one is followed by a chunk that is taken. -/
theorem FreeList.length_le_half {N : ℕ} {v : FixesSortedVec FreeSpace} {held : List Span}
    (h : FreeList N v held) : v.items.length ≤ (N + 1) / 2 := by
  have hstop : ∀ s ∈ v.items.map FreeSpace.span, s.stop ≤ N := by
    intro s hs
    obtain ⟨e, he, rfl⟩ := List.mem_map.mp hs
    exact h.stop_le he
  have hle := two_mul_length_le hstop h.spans.positive h.spans.clear
  rw [List.length_map] at hle
  omega

/-- The rounding of a size cannot leave the word. -/
theorem Layout.roundUp_fits (l : Layout) :
    Usize.checkedAdd (l.size / chunkSize) 1 = some (l.size / chunkSize + 1) := by
  apply Usize.checkedAdd_eq
  have hsize := l.size_le
  have hdiv : l.size / chunkSize * 8 ≤ l.size := Nat.div_mul_le_self _ _
  have hbig : 8 < usizeLimit := by decide
  omega

namespace Arena

variable {env : Environment} {S : Superslice} {capacity : ℕ} {st : Arena}

/-- The entries of the free list. -/
def entries (a : ShmemAlloc) : List FreeSpace := a.freeChunks.freeChunks.items

theorem Inv.entries_le (h : Inv capacity st) :
    (entries st.alloc).length ≤ (capacity / alignment + 1) / 2 :=
  h.freeList.length_le_half

/-- **The free list is never exhausted and no check fires**, in every state of every run: at most
half of the chunks, rounded up, have an entry; an allocation and a deallocation with the layout of
the block come back without a panic of any kind, with the same bound; and no sum or product on the
way leaves the word, which would be recorded as one. -/
theorem freeChunks_bounded (h : Run env S capacity st) :
    (entries st.alloc).length ≤ (capacity / alignment + 1) / 2 ∧
    (∀ layout : Layout, layout.size ≠ 0 →
      Usize.checkedAdd (layout.size / chunkSize) 1 = some (layout.size / chunkSize + 1) ∧
      ∃ r a, st.alloc.allocExcess S layout = .ok (r, a) ∧
        (entries a).length ≤ (capacity / alignment + 1) / 2) ∧
    ∀ b ∈ st.live, ∃ a, st.alloc.dealloc S b.ptr b.layout = .ok a ∧
      (entries a).length ≤ (capacity / alignment + 1) / 2 := by
  have hinv := h.inv
  refine ⟨hinv.entries_le, ?_, ?_⟩
  · intro layout _
    refine ⟨layout.roundUp_fits, ?_⟩
    rcases hinv.allocExcess_cases S layout with
      ⟨-, -, hbad⟩ | ⟨-, hzero⟩ | ⟨-, -, -, hfull⟩ | ⟨gap, v, -, -, -, hsome, hv⟩
    · exact ⟨_, _, hbad, hinv.entries_le⟩
    · exact ⟨_, _, hzero, hinv.entries_le⟩
    · exact ⟨_, _, hfull, hinv.entries_le⟩
    · exact ⟨_, _, hsome, hv.length_le_half⟩
  · intro b hb
    rcases hinv.dealloc_cases S hb rfl le_rfl (Or.inr rfl) with
      ⟨-, hsame⟩ | ⟨i, v, -, -, hret, hv⟩
    · exact ⟨_, hsame, hinv.entries_le⟩
    · exact ⟨_, hret, hv.length_le_half⟩

/-- Two chunks, the first of which is taken. -/
theorem freeChunks_bounded_example :
    (entries ⟨⟨⟨2, [⟨⟨1⟩, 1⟩]⟩⟩, 4096⟩).length ≤ (16 / alignment + 1) / 2 := by
  have h₀ : Run exampleEnvironment .linear 16 ⟨⟨⟨⟨2, [⟨⟨0⟩, 2⟩]⟩⟩, 4096⟩, []⟩ :=
    .new (by decide)
  have h₁ : Run exampleEnvironment .linear 16
      ⟨⟨⟨⟨2, [⟨⟨1⟩, 1⟩]⟩⟩, 4096⟩, [⟨4096, ⟨5, 4, ⟨2, rfl⟩, by decide⟩, 8⟩]⟩ :=
    .allocExcess h₀ (by decide)
  exact (freeChunks_bounded h₁).1

end Arena

end ShmemUtils.Allocator
